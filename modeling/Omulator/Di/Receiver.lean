import Omulator.Di.Owners

/-!
# Which injector a recipe works on

`recipeClosure` hands the recipe the injector it was added to. A recipe that was found
further up the chain therefore makes its requests there, and never sees the injector that was
asked.
-/

namespace Omulator.Di
open Omulator.Lib Comp

/-- From `v` to `u` the requests of the list are made one after the other, each answered as any
call is, and besides them no request is made, no recipe run and nothing default-initialized. -/
inductive Makes (ty : Types) : List (Call × Outcome) → World → World → Prop
  | done {v u : World} {log : List Event} (trace : u.trace = v.trace ++ log)
      (quiet : ∀ e ∈ log, e.isWork = false) : Makes ty [] v u
  | ask {c : Call} {asks : List (Call × Outcome)} {v u : World}
      (rest : Makes ty asks (v.call ty c).2 u) : Makes ty ((c, (v.call ty c).1) :: asks) v u

/-- The entry for `Injector` that `i` was constructed with, and has until it is destroyed. -/
def HoldsItself (w : World) (i : ℕ) : Prop :=
  (w.inj i).typeMap_.lookup injectorHash = some ⟨some (.injector i), false⟩

/-- All requests are made of `i`, and one for the `Injector` is answered with `i` itself. -/
def MadeOf (w : World) (i : ℕ) (asks : List (Call × Outcome)) : Prop :=
  ∀ x ∈ asks, x.1.inj = i ∧ (x.1.kind = .get → x.1.type = injectorHash → HoldsItself w i →
    x.2 = .ok (some (.injector i)))

/-- A recipe that was added to `given` is run for `T`: begun in `v`, whose last event is its
start, it makes the requests `asks`, and where it returns its end is in the log `final`. -/
def Performs (ty : Types) (w : World) (T : Hash_t) (given start : ℕ) (v : World)
    (asks : List (Call × Outcome)) (final : List Event) : Prop :=
  ∃ r res u, (w.inj given).recipeMap_.lookup T = some r ∧
    runRecipe (requests ty) given T start r v = some (res, u) ∧ Makes ty asks v u ∧
    match res with
    | .error _ => u.trace <+: final
    | .ok p => u.trace ++ [.recipeEnd start p] <+: final

/-- What is known, when `top` has been asked in `w`, of the recipe for `T` that `asked` runs with
`given` once `pre` has been logged, and whose requests are all in the log `final`. -/
def Receives (ty : Types) (top : ℕ) (w : World) (pre : List Event) (T : Hash_t)
    (asked given : ℕ) (final : List Event) : Prop :=
  ∃ v asks, Ext top w v ∧ v.trace = pre ++ [.recipe T asked given] ∧
    Performs ty w T given pre.length v asks final ∧ MadeOf w given asks ∧
    (given = asked ↔ ((w.inj asked).recipeMap_.lookup T).isSome)

/-- What is known of every recipe that is run from `v` on, up to `u`. -/
structure Reports (P : List Event → Hash_t → ℕ → ℕ → List Event → Prop) (v u : World) : Prop where
  trace : v.trace <+: u.trace
  recipes : ∀ pre T asked given, pre ++ [.recipe T asked given] <+: u.trace →
    v.trace.length ≤ pre.length → P pre T asked given u.trace

section
variable {ty : Types} {top i o : ℕ} {w v u v' : World} {T : Hash_t}
  {P : List Event → Hash_t → ℕ → ℕ → List Event → Prop}

theorem Performs.mono {given start : ℕ} {asks : List (Call × Outcome)} {f f' : List Event}
    (h : Performs ty w T given start v asks f) (hf : f <+: f') :
    Performs ty w T given start v asks f' := by
  obtain ⟨r, res, u, hr, hrun, hmakes, hend⟩ := h
  refine ⟨r, res, u, hr, hrun, hmakes, ?_⟩
  cases res with
  | error e => exact hend.trans hf
  | ok p => exact hend.trans hf

theorem Receives.mono {pre : List Event} {asked given : ℕ} {f f' : List Event}
    (h : Receives ty top w pre T asked given f) (hf : f <+: f') :
    Receives ty top w pre T asked given f' := by
  obtain ⟨v, asks, hext, htr, hperf, hmade, hown⟩ := h
  exact ⟨v, asks, hext, htr, hperf.mono hf, hmade, hown⟩

namespace Reports

theorem quiet {l : List Event} (h : u.trace = v.trace ++ l)
    (hlog : ∀ T asked given, .recipe T asked given ∉ l) : Reports P v u := by
  refine ⟨⟨l, h.symm⟩, ?_⟩
  rintro pre T asked given ⟨post, hpost⟩ hle
  rw [h, List.append_assoc] at hpost
  refine absurd ?_ (hlog T asked given)
  obtain ⟨mid, hmid, hrest⟩ | ⟨mid, -, hrest⟩ := List.append_eq_append_iff.mp hpost
  · have hnil : mid = [] := by
      rw [hmid, List.length_append] at hle
      exact List.eq_nil_of_length_eq_zero (by omega)
    rw [hnil, List.nil_append] at hrest
    simp [← hrest]
  · simp [hrest]

theorem same (h : u.trace = v.trace) : Reports P v u := quiet (l := []) (by simp [h]) (by simp)

theorem refl (v : World) : Reports P v v := same rfl

theorem emit (v : World) {e : Event} (he : ∀ T asked given, e ≠ .recipe T asked given) :
    Reports P v (v.emit e) :=
  quiet rfl fun T asked given h => he T asked given (List.mem_singleton.mp h).symm

theorem start (h : Reports P (v.emit (.recipe T i o)) u) (hP : P v.trace T i o u.trace) :
    Reports P v u := by
  refine ⟨(List.prefix_append ..).trans h.trace, fun pre T' asked given hpre hle => ?_⟩
  by_cases hlt : (v.emit (.recipe T i o)).trace.length ≤ pre.length
  · exact h.recipes pre T' asked given hpre hlt
  · have hlen : pre.length = v.trace.length := by
      simp only [World.emit_trace, List.length_append, List.length_singleton] at hlt
      omega
    have hsame : pre ++ [.recipe T' asked given] = v.trace ++ [.recipe T i o] :=
      (List.prefix_of_prefix_length_le hpre h.trace (by simp [hlen])).eq_of_length (by simp [hlen])
    obtain ⟨rfl, he⟩ := List.append_inj hsame hlen
    cases he
    exact hP

end Reports

section
variable {top : ℕ} {w v u v' : World}

theorem Reports.trans (h : Reports (Receives ty top w) v u)
    (h' : Reports (Receives ty top w) u v') : Reports (Receives ty top w) v v' := by
  refine ⟨h.trace.trans h'.trace, fun pre T asked given hpre hle => ?_⟩
  by_cases hlt : u.trace.length ≤ pre.length
  · exact h'.recipes pre T asked given hpre hlt
  · have hin : pre ++ [.recipe T asked given] <+: u.trace :=
      List.prefix_of_prefix_length_le hpre h'.trace (by simp; omega)
    exact (h.recipes pre T asked given hin hle).mono h'.trace

end

/-! ### The requests of a recipe -/

theorem ask_madeOf (hv : v.WF) (hi : i < v.count)
    (hself : HoldsItself w i → HoldsItself v i)
    (kind : Kind) (U : Hash_t) {asks : List (Call × Outcome)} (h : MadeOf w i asks) :
    MadeOf w i ((⟨kind, i, U⟩, (v.call ty ⟨kind, i, U⟩).1) :: asks) := by
  intro x hx
  rcases List.mem_cons.mp hx with rfl | hx
  · refine ⟨rfl, ?_⟩
    rintro rfl rfl hw
    exact located_call hv hi (Or.inl ⟨_, hself hw, rfl⟩)
  · exact h x hx

theorem makes_nothing {l : List Event} (htr : u.trace = v.trace ++ l)
    (hquiet : ∀ e ∈ l, e.isWork = false) : ∃ asks, Makes ty asks v u ∧ MadeOf w i asks :=
  ⟨[], .done htr hquiet, by simp [MadeOf]⟩

theorem makes_same (htr : u.trace = v.trace) : ∃ asks, Makes ty asks v u ∧ MadeOf w i asks :=
  makes_nothing (l := []) (by simp [htr]) (by simp)

theorem request_makes (kind : Kind) (U : Hash_t) (f : Outcome → M (Option Addr)) (hv : v.WF)
    (hi : i < v.count)
    (hself : HoldsItself w i → HoldsItself v i)
    (hf : ∀ r v', v'.WF → i < v'.count →
      (HoldsItself w i → HoldsItself v' i) →
      wp (f r) (fun _ u => ∃ asks, Makes ty asks v' u ∧ MadeOf w i asks) v') :
    wp (attempt (requests ty ⟨kind, i, U⟩) f)
      (fun _ u => ∃ asks, Makes ty asks v u ∧ MadeOf w i asks) v := by
  have hext : Ext i v (v.call ty ⟨kind, i, U⟩).2 := call_ext (c := ⟨kind, i, U⟩) hv hi
  rw [wp_attempt, wp_requests]
  refine wp_mono (hf _ _ (hext.wf hi hv) (Nat.lt_of_lt_of_le hi hext.count)
    fun hw => hext.entries i injectorHash _ hi (hself hw)) ?_
  rintro r u ⟨asks, hmakes, hmade⟩
  exact ⟨_, .ask hmakes, ask_madeOf hv hi hself kind U hmade⟩

theorem runProg_makes (p : Prog) (hv : v.WF) (hi : i < v.count)
    (hself : HoldsItself w i → HoldsItself v i) :
    wp (runProg (requests ty) i p) (fun _ u => ∃ asks, Makes ty asks v u ∧ MadeOf w i asks) v := by
  induction p generalizing v with
  | new =>
    exact wp_look.mpr (wp_change.mpr ((wp_ret _).mpr (makes_same rfl)))
  | ret p => exact (wp_ret _).mpr (makes_same rfl)
  | throw e => exact (wp_raise _).mpr (makes_same rfl)
  | get U k ih =>
    exact request_makes .get U _ hv hi hself fun r _ hv' hi' hself' => ih r hv' hi' hself'
  | creat U k ih =>
    exact request_makes .creat U _ hv hi hself fun r _ hv' hi' hself' => ih r hv' hi' hself'

theorem runRecipe_makes (T : Hash_t) (start : ℕ) (recipe : Recipe) (hv : v.WF) (hi : i < v.count)
    (hself : HoldsItself w i → HoldsItself v i) :
    wp (runRecipe (requests ty) i T start recipe)
      (fun _ u => ∃ asks, Makes ty asks v u ∧ MadeOf w i asks) v := by
  cases recipe with
  | fn body => exact runProg_makes (body start) hv hi hself
  | bind impl =>
    rw [runRecipe, andThen]
    refine request_makes .get impl _ hv hi hself fun r v' _ _ _ => ?_
    cases r with
    | error e => exact (wp_raise _).mpr (makes_same rfl)
    | ok p =>
      refine wp_change.mpr ((wp_ret _).mpr (makes_nothing (World.onTypeMap_trace ..) ?_))
      intro e he
      obtain ⟨a, -, rfl⟩ := List.mem_map.mp he
      rfl
  | child =>
    exact wp_look.mpr (wp_change.mpr ((wp_ret _).mpr (makes_same rfl)))

/-! ### Every recipe that is run -/

/-- The state a call on `top` is made in. -/
structure Starts (w : World) (top : ℕ) : Prop where
  wf : w.WF
  lt : top < w.count

/-- In the course of a call on `top` in `w`, a request is made of `i`. -/
structure Within (w : World) (top i : ℕ) (v : World) : Prop where
  ext : Ext top w v
  anc : Anc w i top

theorem Anc.before {j : ℕ} (hw : w.WF) (hext : Ext top w v) (h : Anc v j i) (hi : i < w.count) :
    Anc w j i := by
  induction h with
  | self => exact .self _
  | up hp _ ih =>
    rw [hext.upstream _ hi] at hp
    have hlt := hw _ _ hi hp
    exact .up hp (ih (by omega))

namespace Within

theorem le (hw : Starts w top) (h : Within w top i v) : i ≤ top := h.anc.le hw.wf hw.lt

theorem wf (hw : Starts w top) (h : Within w top i v) : v.WF := h.ext.wf hw.lt hw.wf

theorem lt (hw : Starts w top) (h : Within w top i v) : i < v.count :=
  Nat.lt_of_le_of_lt (h.le hw) (Nat.lt_of_lt_of_le hw.lt h.ext.count)

theorem self (hw : Starts w top) (h : Within w top i v) (hi : HoldsItself w i) :
    HoldsItself v i :=
  h.ext.entries i injectorHash _ (Nat.lt_of_le_of_lt (h.le hw) hw.lt) hi

theorem step (hw : Starts w top) (h : Within w top i v) (hu : Ext i v u) : Within w top i u where
  ext := h.ext.trans hw.lt (hu.up (h.le hw))
  anc := h.anc

theorem owner (hw : Starts w top) (h : Within w top i v) (ho : Anc v o i) : Within w top o v where
  ext := h.ext
  anc := (ho.before hw.wf h.ext (Nat.lt_of_le_of_lt (h.le hw) hw.lt)).trans h.anc

theorem recipes (hw : Starts w top) (h : Within w top i v) :
    (v.inj i).recipeMap_ = (w.inj i).recipeMap_ :=
  h.ext.recipes i (Nat.lt_of_le_of_lt (h.le hw) hw.lt)

end Within

abbrev ReportsAll (ty : Types) (w : World) (top fuel : ℕ) : Prop :=
  ∀ c v, Within w top c.inj v →
    wp (exec ty fuel c) (fun _ u => Reports (Receives ty top w) v u) v

variable {fuel : ℕ}

theorem runProg_reports (hw : Starts w top) (hrec : ReportsAll ty w top fuel) (p : Prog)
    (h : Within w top i v) :
    wp (runProg (exec ty fuel) i p) (fun _ u => Reports (Receives ty top w) v u) v := by
  induction p generalizing v with
  | new => exact wp_look.mpr (wp_change.mpr ((wp_ret _).mpr (.same rfl)))
  | ret p => exact (wp_ret _).mpr (.refl v)
  | throw e => exact (wp_raise _).mpr (.refl v)
  | get U k ih | creat U k ih =>
    rw [runProg, wp_attempt]
    refine wp_mono (wp_and (exec_ext fuel _ v ⟨h.wf hw, h.lt hw⟩) (hrec _ v h)) ?_
    rintro r u ⟨hext, hreports⟩
    exact wp_mono (ih r (h.step hw hext)) fun _ _ h' => hreports.trans h'

theorem runRecipe_reports (hw : Starts w top) (hrec : ReportsAll ty w top fuel) (start : ℕ)
    (recipe : Recipe) (h : Within w top i v) :
    wp (runRecipe (exec ty fuel) i T start recipe)
      (fun _ u => Reports (Receives ty top w) v u) v := by
  cases recipe with
  | fn body => exact runProg_reports hw hrec (body start) h
  | bind impl =>
    rw [runRecipe, wp_andThen]
    refine wp_mono (hrec ⟨.get, i, impl⟩ v h) ?_
    intro r u hreports
    cases r with
    | error e => exact hreports
    | ok p =>
      refine wp_change.mpr ((wp_ret _).mpr (hreports.trans (.quiet (World.onTypeMap_trace ..) ?_)))
      simp
  | child =>
    exact wp_look.mpr (wp_change.mpr ((wp_ret _).mpr (.same rfl)))

/-- A recipe is run: it works on the injector it was added to. -/
theorem recipeClosure_reports (hw : Starts w top) (hrec : ReportsAll ty w top fuel)
    {recipe : Recipe} (h : Within w top o v) (hl : (w.inj o).recipeMap_.lookup T = some recipe)
    (hown : o = i ↔ ((w.inj i).recipeMap_.lookup T).isSome) :
    wp (recipeClosure (exec ty fuel) o T recipe i)
      (fun _ u => Reports (Receives ty top w) v u) v := by
  have h' : Within w top o (v.emit (.recipe T i o)) := h.step hw (Ext.emit o v _)
  have hmakes : wp (runRecipe (requests ty) o T v.trace.length recipe)
      (fun _ u => ∃ asks, Makes ty asks _ u ∧ MadeOf w o asks) (v.emit (.recipe T i o)) :=
    runRecipe_makes T v.trace.length recipe (h'.wf hw) (h'.lt hw) (h'.self hw)
  refine wp_recipeClosure _ (wp_mono (wp_and (runRecipe_requests fuel o T v.trace.length recipe
    (h'.wf hw) (h'.lt hw)) (runRecipe_reports hw hrec v.trace.length recipe h')) ?_)
  rintro r u ⟨hrun, hreports⟩
  obtain ⟨asks, hmake, hmade⟩ := hmakes r u hrun
  have hperf : ∀ final, (match r with
      | .error _ => u.trace <+: final
      | .ok p => u.trace ++ [.recipeEnd v.trace.length p] <+: final) →
      Receives ty top w v.trace T i o final := fun final hend =>
    ⟨_, asks, h'.ext, rfl, ⟨recipe, r, u, hl, hrun, hmake, hend⟩, hmade, hown⟩
  cases r with
  | error e => exact hreports.start (hperf _ List.prefix_rfl)
  | ok p => exact (hreports.trans (.emit u (by simp))).start (hperf _ List.prefix_rfl)

theorem inject_reports (hw : Starts w top) (hrec : ReportsAll ty w top fuel) (d : DepType_t)
    (h : Within w top i v) :
    wp (inject_ ty (exec ty fuel) i T d) (fun _ u => Reports (Receives ty top w) v u) v := by
  refine wp_inject ty _ (fun o recipe hfind => ?_) (fun _ _ _ => .refl v)
    (fun _ _ _ _ => ?_) fun _ _ _ _ => ?_
  · obtain ⟨ha, hl, hown⟩ := find_recipe_some hfind
    have ho := h.owner hw ha
    rw [ho.recipes hw] at hl
    rw [h.recipes hw] at hown
    refine wp_mono (recipeClosure_reports hw hrec ho hl hown) ?_
    intro r u hreports
    cases r with
    | error e => exact hreports
    | ok c =>
      refine wp_place ty (fun _ => ?_) (fun _ _ => hreports) fun _ _ => ?_
      · exact hreports.trans (.quiet (World.destroyAll_trace ..) (by simp))
      · obtain ⟨log, hlog, hquiet, -⟩ := emplace_ptr_log u i T c.ptr_
        refine hreports.trans (.quiet hlog fun T' asked given hmem => ?_)
        exact absurd (hquiet _ hmem) (by simp [Event.isWork])
  · refine wp_createInstance ty (fun _ _ => .refl v) fun _ => ?_
    exact .quiet (l := [_]) rfl (by simp)
  · refine wp_emplaceDefault ty (fun _ => .refl v) (fun _ n _ => ?_) fun hno _ => ?_
    · exact .quiet (World.onTypeMap_trace ..) (by simp)
    · have hput := TypeMap.emplace_of_not_has hno (some (.obj v.fresh))
      refine .quiet (l := [.built T (.obj v.fresh), .managed i T (.obj v.fresh)]) ?_ (by simp)
      simp [hput]

theorem makeDependency_reports (hw : Starts w top) (hrec : ReportsAll ty w top fuel) (d : DepType_t)
    (h : Within w top i v) :
    wp (makeDependency_ ty (exec ty fuel) i T d)
      (fun _ u => Reports (Receives ty top w) v u) v := by
  refine wp_makeDependency ty _ (fun _ _ => .refl v) fun _ => ?_
  refine wp_mono (inject_reports hw hrec d (h.step hw (Ext.enter i T v))) ?_
  intro r u hreports
  have hent : Reports (Receives ty top w) v u :=
    Reports.trans (.same (by simp)) hreports
  cases r with
  | error e => exact hent
  | ok c => exact hent.trans (.same (by simp))

theorem refOf_reports (i : ℕ) (T : Hash_t) (v : World) :
    wp (refOf i T) (fun _ u => Reports (Receives ty top w) v u) v :=
  wp_refOf (fun _ => .refl v) fun _ _ => .emit v (by simp)

theorem exec_reports (hw : Starts w top) (fuel : ℕ) : ReportsAll ty w top fuel := by
  induction fuel with
  | zero => intro c v _ r u h; cases h
  | succ fuel ih =>
    rintro ⟨kind, i, T⟩ v h
    have hasked : ∀ k, Reports (Receives ty top w) v (v.emit (.asked k i T)) :=
      fun k => .emit v (by simp)
    have h' : ∀ k, Within w top i (v.emit (.asked k i T)) := fun k => h.step hw (Ext.emit i v _)
    change wp (callBody ty (exec ty fuel) ⟨kind, i, T⟩) _ v
    cases kind with
    | get =>
      refine wp_get ty _ (fun c _ => ?_) (fun _ q hq _ => ?_) fun _ _ => ?_
      · exact wp_mono (refOf_reports i T _) fun _ _ hr => (hasked .get).trans hr
      · have hup : Anc (v.emit (.asked .get i T)) q i := .up hq (.self q)
        refine wp_mono (ih ⟨.get, q, T⟩ _ ((h' .get).owner hw hup)) ?_
        intro r u hreports
        cases r with
        | error e => exact (hasked .get).trans hreports
        | ok p => exact ((hasked .get).trans hreports).trans (.emit u (by simp))
      · refine wp_mono (makeDependency_reports hw ih .REFERENCE (h' .get)) ?_
        intro r u hreports
        cases r with
        | error e => exact (hasked .get).trans hreports
        | ok c => exact wp_mono (refOf_reports i T u) fun _ _ hr =>
            ((hasked .get).trans hreports).trans hr
    | creat =>
      refine wp_creat ty _ (wp_mono (makeDependency_reports hw ih .NEW_VALUE (h' .creat)) ?_)
      intro r u hreports
      have hall := (hasked .creat).trans hreports
      cases r with
      | error e => exact hall
      | ok c => exact ⟨fun _ => hall, fun _ => hall⟩

end

/-- Whatever recipe is run in the course of a call, at whatever depth, between its start and its
end it makes its requests of the injector it was added to. So it works on the injector that was
asked for its type, and is handed that one where it asks for the `Injector`, exactly when the
recipe is that injector's own. -/
theorem recipe_receives_asked_iff (ty : Types) (c : Call) (w : World) (hw : w.WF)
    (hi : c.inj < w.count) (pre post : List Event) (T : Hash_t) (asked given : ℕ)
    (htrace : (w.call ty c).2.trace = w.trace ++ pre ++ .recipe T asked given :: post) :
    ∃ v asks, Ext c.inj w v ∧ v.trace = w.trace ++ pre ++ [.recipe T asked given] ∧
      Performs ty w T given (w.trace ++ pre).length v asks (w.call ty c).2.trace ∧
      MadeOf w given asks ∧
      (given = asked ∧ MadeOf w asked asks ↔ ((w.inj asked).recipeMap_.lookup T).isSome) := by
  have hreports : Reports (Receives ty c.inj w) w (w.call ty c).2 :=
    call_of_wp (Q := fun _ u => Reports (Receives ty c.inj w) w u) hw hi fun fuel =>
      exec_reports ⟨hw, hi⟩ fuel c w ⟨.refl c.inj w, .self c.inj⟩
  obtain ⟨v, asks, hext, htr, hperf, hmade, hown⟩ := hreports.recipes (w.trace ++ pre) T asked given
    ⟨post, by rw [htrace, List.append_assoc, List.singleton_append]⟩ (by simp)
  refine ⟨v, asks, hext, htr, hperf, hmade, fun h => hown.mp h.1, fun h => ?_⟩
  have hsame : given = asked := hown.mpr h
  subst hsame
  exact ⟨rfl, hmade⟩

/-! ### What the injectors of a program hold -/

theorem call_holdsItself {ty : Types} {c : Call} {w : World} (hw : w.WF) (hc : c.inj < w.count)
    {i : ℕ} (hi : i < (w.call ty c).2.count) (h : i < w.count → HoldsItself w i) :
    HoldsItself (w.call ty c).2 i := by
  have hext : Ext c.inj w (w.call ty c).2 := call_ext hw hc
  by_cases hlt : i < w.count
  · exact hext.entries i injectorHash _ hlt (h hlt)
  · obtain ⟨p, -, hnew⟩ := hext.newborn i (by omega) hi
    rw [HoldsItself, hnew]
    rfl

/-- In every session an injector that has not been destroyed holds itself. -/
theorem session_holdsItself {ty : Types} {s : Session} (h : Run (sessionStep ty) Session.start s) :
    ∀ i < s.world.count, i ∉ s.destroyed → HoldsItself s.world i := by
  have hall : s.world.WF ∧ ∀ i < s.world.count, i ∉ s.destroyed → HoldsItself s.world i := by
    refine h.invariant (fun s => s.world.WF ∧ ∀ i < s.world.count, i ∉ s.destroyed →
      HoldsItself s.world i) ⟨root_wf, fun i hi _ => ?_⟩ ?_
    · obtain rfl : i = 0 := Nat.lt_one_iff.mp hi
      rfl
    rintro s op t ⟨hw, hself⟩ - ⟨hop, -, -, rfl⟩
    cases op with
    | call c =>
      rw [after_of_keeps rfl]
      exact ⟨call_wf hw hop, fun i hi hd => call_holdsItself hw hop hi fun hlt => hself i hlt hd⟩
    | addRecipe k U body =>
      rw [after_of_keeps rfl]
      refine ⟨insertRecipe_wf hw k U _, fun i hi hd => ?_⟩
      have hlt : i < s.world.count := insertRecipe_count s.world k U (.fn body) ▸ hi
      exact (congrArg (AList.lookup injectorHash) (insertRecipe_typeMap _ k i U _)).trans
        (hself i hlt hd)
    | bindImpl k Interface Implementation =>
      rw [after_of_keeps rfl]
      refine ⟨insertRecipe_wf hw k Interface _, fun i hi hd => ?_⟩
      have hlt : i < s.world.count :=
        insertRecipe_count s.world k Interface (.bind Implementation) ▸ hi
      exact (congrArg (AList.lookup injectorHash) (insertRecipe_typeMap _ k i Interface _)).trans
        (hself i hlt hd)
    | destroy k =>
      obtain ⟨_, hf, -, -⟩ := destroyInjector_deletes s.world k
      refine ⟨destroyInjector_wf hw k, fun i hi hd => ?_⟩
      have hd' : i ≠ k ∧ i ∉ s.destroyed := by simpa [Session.after, Op.destroys] using hd
      have hlt : i < s.world.count := hf.count ▸ hi
      have hsame : (s.world.destroyInjector k).inj i = s.world.inj i := hf.others i hd'.1
      exact (congrArg (fun x : Injector => x.typeMap_.lookup injectorHash) hsame).trans
        (hself i hlt hd'.2)
  exact hall.2

/-- The root has a constructor recipe for the type 1, which takes an `Injector &` and the type 2,
and a child. -/
def childWorld : World :=
  ((World.root.addCtorRecipe 0 1 [.ref injectorHash, .ref 2]).call plainTypes
    ⟨.creat, 0, injectorHash⟩).2

theorem childWorld_wf : childWorld.WF :=
  call_wf (insertRecipe_wf root_wf 0 1 _) (by decide)

def childLog : List Event :=
  [.asked .get 0 0, .got 0 0 (some (.injector 0)), .asked .get 0 2, .built 2 (.obj 0),
    .managed 0 2 (.obj 0), .got 0 2 (some (.obj 0)), .recipeEnd 4 (some (.obj 1))]

theorem childWorld_trace : (childWorld.call plainTypes ⟨.creat, 1, 1⟩).2.trace =
    childWorld.trace ++ [.asked .creat 1 1] ++ .recipe 1 1 0 :: childLog := by
  decide

theorem childWorld_creat_receives :
    ∃ v asks, Ext 1 childWorld v ∧
      v.trace = childWorld.trace ++ [.asked .creat 1 1] ++ [.recipe 1 1 0] ∧
      Performs plainTypes childWorld 1 0
        (childWorld.trace ++ [Event.asked .creat 1 1]).length v asks
        (childWorld.call plainTypes ⟨.creat, 1, 1⟩).2.trace ∧
      MadeOf childWorld 0 asks ∧
      (0 = 1 ∧ MadeOf childWorld 1 asks ↔ ((childWorld.inj 1).recipeMap_.lookup 1).isSome) :=
  recipe_receives_asked_iff plainTypes ⟨.creat, 1, 1⟩ childWorld childWorld_wf (by decide)
    [.asked .creat 1 1] childLog 1 1 0 childWorld_trace

/-- The child is asked for the type 1, whose recipe is the root's: the recipe gets the root, and
what the constructor is handed for its `Injector &` is the root. -/
theorem child_recipe_receives_root :
    (childWorld.inj 1).pUpstream_ = some 0 ∧
    (childWorld.call plainTypes ⟨.creat, 1, 1⟩).2.trace =
      childWorld.trace ++ [.asked .creat 1 1] ++ .recipe 1 1 0 :: childLog ∧
    ¬ ∀ (ty : Types) (c : Call) (w : World), w.WF → c.inj < w.count →
      ∀ pre post T asked given, (w.call ty c).2.trace =
        w.trace ++ pre ++ .recipe T asked given :: post → given = asked := by
  refine ⟨by decide, childWorld_trace, fun h => ?_⟩
  have hsame := h plainTypes ⟨.creat, 1, 1⟩ childWorld childWorld_wf (by decide)
    [.asked .creat 1 1] childLog 1 1 0 childWorld_trace
  cases hsame

end Omulator.Di
