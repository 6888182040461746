import Omulator.Di.Destruction
import Omulator.Di.Confined

/-!
# What an instance was built with

Where every way through the recipe of `T` that returns gets `U`, the instance of `T` that
the root injector owns was constructed with the one `get<U>()` gives. The order in which
`~Injector` deletes then follows from the recipes alone.
-/

namespace Omulator.Di
open Omulator.Lib Comp

/-- Every way through the program that returns gets `U`. -/
def Prog.Needs (U : Hash_t) : Prog → Prop
  | .new | .ret _ => False
  | .throw _ => True
  | .get V k => (V = U ∧ ∀ e, (k (.error e)).Needs U) ∨ ∀ r, (k r).Needs U
  | .creat _ k => ∀ r, (k r).Needs U

/-- The recipe for `T` gets `U`, whatever the moment. -/
def Demands (R : AList fun _ : Hash_t => Recipe) (T U : Hash_t) : Prop :=
  ∃ body, R.lookup T = some (.fn body) ∧ ∀ m, (body m).Needs U

/-- `a` was built with what the root gives for `U`. -/
def BuiltWith (w : World) (a : Addr) (U : Hash_t) : Prop :=
  ∃ c, (w.inj 0).typeMap_.lookup U = some c ∧ ∀ d, c.ptr_ = some d → ConstructedWith w.trace a d

structure Fit (R : AList fun _ : Hash_t => Recipe) (w : World) (T : Hash_t) (c : TypeContainer) :
    Prop where
  built : ∀ U a, Demands R T U → c.ptr_ = some a → BuiltWith w a U
  bound : ∀ impl, R.lookup T = some (.bind impl) →
    ∃ c', (w.inj 0).typeMap_.lookup impl = some c' ∧ c'.ptr_ = c.ptr_
  owned : ∀ body a, R.lookup T = some (.fn body) → c.ptr_ = some a → c.hasOwnership_ = true

/-- What the root has was built with what its recipe demands, or is that of the type it is
bound to. -/
def Wired (R : AList fun _ : Hash_t => Recipe) (w : World) : Prop :=
  ∀ T c, (w.inj 0).typeMap_.lookup T = some c → Fit R w T c

/-- Between `w` and `w'` a `get<U>()` gave `p`, which the root now has for `U`. -/
def GaveOut (w : World) (U : Hash_t) (p : Option Addr) (w' : World) : Prop :=
  ∃ seg c, w'.trace = w.trace ++ seg ∧ .got 0 U p ∈ seg ∧
    (w'.inj 0).typeMap_.lookup U = some c ∧ c.ptr_ = p

section
variable {R : AList fun _ : Hash_t => Recipe} {T U : Hash_t} {a : Addr} {w w' w'' : World}

theorem GaveOut.ext {p : Option Addr} (h : GaveOut w U p w') (hlt : 0 < w'.count)
    (he : Ext 0 w' w'') : GaveOut w U p w'' := by
  obtain ⟨seg, c, ht, hg, hc, hp⟩ := h
  obtain ⟨more, hm⟩ := he.trace
  refine ⟨seg ++ more, c, by rw [← hm, ht, List.append_assoc], List.mem_append_left _ hg, ?_, hp⟩
  exact he.entries 0 U c hlt hc

theorem GaveOut.before {p : Option Addr} (h : GaveOut w' U p w'') (ht : w.trace <+: w'.trace) :
    GaveOut w U p w'' := by
  obtain ⟨seg, c, ht', hg, hc⟩ := h
  obtain ⟨more, hm⟩ := ht
  exact ⟨more ++ seg, c, by rw [ht', ← hm, List.append_assoc], List.mem_append_right _ hg, hc⟩

theorem BuiltWith.later (h : BuiltWith w a U) (ht : w.trace <+: w'.trace)
    (hl : ∀ c, (w.inj 0).typeMap_.lookup U = some c → (w'.inj 0).typeMap_.lookup U = some c) :
    BuiltWith w' a U := by
  obtain ⟨c, hc, hd⟩ := h
  obtain ⟨seg, hs⟩ := ht
  exact ⟨c, hl c hc, fun d hp => hs ▸ (hd d hp).append seg⟩

theorem Fit.later {c : TypeContainer} (h : Fit R w T c) (ht : w.trace <+: w'.trace)
    (hl : ∀ U c, (w.inj 0).typeMap_.lookup U = some c →
      (w'.inj 0).typeMap_.lookup U = some c) : Fit R w' T c := by
  refine ⟨fun U a hd hp => (h.built U a hd hp).later ht (hl U), fun impl hi => ?_, h.owned⟩
  obtain ⟨c', hc', hp⟩ := h.bound impl hi
  exact ⟨c', hl impl c' hc', hp⟩

theorem Fit.plain {c : TypeContainer} (hl : R.lookup T = none ∨ R.lookup T = some .child) :
    Fit R w T c := by
  refine ⟨?_, ?_, ?_⟩
  · rintro U a ⟨body, hb, _⟩
    rcases hl with hl | hl <;> cases hl.symm.trans hb
  · intro impl hi
    rcases hl with hl | hl <;> cases hl.symm.trans hi
  · intro body a hb
    rcases hl with hl | hl <;> cases hl.symm.trans hb

theorem Wired.same (h : Wired R w) (hm : (w'.inj 0).typeMap_ = (w.inj 0).typeMap_)
    (ht : w.trace <+: w'.trace) : Wired R w' := by
  intro T c hl
  rw [hm] at hl
  refine (h T c hl).later ht fun U c' hc' => ?_
  rwa [hm]

theorem Wired.placed (h : Wired R w) (hp : Placed 0 T w w')
    (hnew : ∀ c, (w.inj 0).typeMap_.lookup T = none →
      (w'.inj 0).typeMap_.lookup T = some c → Fit R w' T c) : Wired R w' := by
  have hkeep : ∀ U c, (w.inj 0).typeMap_.lookup U = some c →
      (w'.inj 0).typeMap_.lookup U = some c := fun U c hc => hp.lookup_some hc
  intro V c hl
  cases hold : (w.inj 0).typeMap_.lookup V with
  | some c' =>
    have hc := hkeep V c' hold
    rw [hl] at hc
    cases hc
    exact (h V c hold).later hp.trace hkeep
  | none =>
    by_cases hV : V = T
    · subst hV
      exact hnew c hold hl
    · rw [hp.lookup_ne (Or.inr hV), hold] at hl
      cases hl

end

/-! ### Every call keeps to it -/

section
variable {ty : Types} {rec : Call → M (Option Addr)} {R : AList fun _ : Hash_t => Recipe}
  {T : Hash_t} {w : World}

abbrev Wires (R : AList fun _ : Hash_t => Recipe) (rec : Call → M (Option Addr)) : Prop :=
  ∀ kind T w, (Rooted R w ∧ Wired R w) → wp (rec ⟨kind, 0, T⟩) (fun r w' => Wired R w' ∧
    (kind = .get → ∀ p, r = .ok p → GaveOut w T p w')) w

theorem runProg_wires (hext : Extends rec) (hrec : Wires R rec) (p : Prog) (hroot : Rooted R w)
    (hw : Wired R w) : wp (runProg rec 0 p) (fun r w' => Wired R w' ∧
      ∀ U, p.Needs U → ∀ q, r = .ok q → ∃ p', GaveOut w U p' w') w := by
  induction p generalizing w with
  | new =>
    rw [runProg, wp_look, wp_change, wp_ret]
    exact ⟨hw.same rfl List.prefix_rfl, fun U hU => hU.elim⟩
  | ret p =>
    rw [runProg, wp_ret]
    exact ⟨hw, fun U hU => hU.elim⟩
  | throw e =>
    rw [runProg, wp_raise]
    refine ⟨hw, fun U _ q hq => ?_⟩
    cases hq
  | get V k ih =>
    rw [runProg, wp_attempt]
    refine wp_mono (wp_and (hrec .get V w ⟨hroot, hw⟩) (hext _ w ⟨hroot.wf, hroot.lt⟩)) ?_
    rintro r w₁ ⟨⟨hw₁, hans⟩, he⟩
    have hroot₁ := hroot.ext he
    refine wp_mono (wp_and (ih r hroot₁ hw₁)
      (runProg_ext hext 0 (k r) w₁ hroot₁.wf hroot₁.lt)) ?_
    rintro r' w₂ ⟨⟨hw₂, hrest⟩, he₂⟩
    refine ⟨hw₂, fun U hU q hq => ?_⟩
    rcases hU with ⟨hVU, herr⟩ | hU
    · cases r with
      | error e =>
        obtain ⟨p', hp'⟩ := hrest U (herr e) q hq
        exact ⟨p', hp'.before he.trace⟩
      | ok p => exact ⟨p, hVU ▸ (hans rfl p rfl).ext hroot₁.lt he₂⟩
    · obtain ⟨p', hp'⟩ := hrest U (hU r) q hq
      exact ⟨p', hp'.before he.trace⟩
  | creat V k ih =>
    rw [runProg, wp_attempt]
    refine wp_mono (wp_and (hrec .creat V w ⟨hroot, hw⟩) (hext _ w ⟨hroot.wf, hroot.lt⟩)) ?_
    rintro r w₁ ⟨⟨hw₁, _⟩, he⟩
    refine wp_mono (ih r (hroot.ext he) hw₁) ?_
    rintro r' w₂ ⟨hw₂, hrest⟩
    refine ⟨hw₂, fun U hU q hq => ?_⟩
    obtain ⟨p', hp'⟩ := hrest U (hU r) q hq
    exact ⟨p', hp'.before he.trace⟩

/-- What the recipe for `T` has returned is fit to be the instance of `T`; that of a bound
type has put one there. -/
abbrev Delivers (R : AList fun _ : Hash_t => Recipe) (T : Hash_t) :
    Except Exn TypeContainer → World → Prop := fun r w => Wired R w ∧
  ∀ c, r = .ok c → (w.inj 0).typeMap_.lookup T = none → Fit R w T ⟨c.ptr_, true⟩

theorem delivers_error {e : Exn} (h : Wired R w) : Delivers R T (.error e) w := by
  refine ⟨h, fun c hc => ?_⟩
  cases hc

theorem recipeClosure_wires (hext : Extends rec) (hrec : Wires R rec) {recipe : Recipe}
    (hl : R.lookup T = some recipe) (hroot : Rooted R w) (hw : Wired R w) :
    wp (recipeClosure rec 0 T recipe 0) (Delivers R T) w := by
  have hroot' : Rooted R (w.emit (.recipe T 0 0)) := hroot.stays ((Placed.refl 0 T w).emit _)
  have hw' : Wired R (w.emit (.recipe T 0 0)) := hw.same rfl ⟨_, rfl⟩
  refine wp_recipeClosure_cases rec (fun body hb => ?_) (fun impl hb => ?_) fun hb => ?_
  · subst hb
    refine wp_mono (runProg_wires hext hrec _ hroot' hw') ?_
    rintro r w₁ ⟨hw₁, hneeds⟩
    cases r with
    | error e => exact delivers_error hw₁
    | ok p =>
      refine ⟨hw₁.same rfl ⟨_, rfl⟩, ?_⟩
      rintro c hc _
      cases hc
      refine ⟨?_, fun impl hi => ?_, fun _ _ _ _ => rfl⟩
      · rintro U a ⟨body', hl', hd⟩ ha
        change p = some a at ha
        subst ha
        rw [hl] at hl'
        cases hl'
        obtain ⟨q, seg, c, ht, hg, hc, rfl⟩ := hneeds U (hd _) _ rfl
        refine ⟨c, hc, fun d hp => ?_⟩
        rw [hp] at hg
        -- the recipe began where the trace of `w` ends
        refine ⟨w.trace, seg, [], T, 0, 0, 0, U, ?_, hg⟩
        rw [World.emit_trace, ht, World.emit_trace]
        simp
      · rw [hl] at hi
        cases hi
  · subst hb
    refine wp_mono (hrec .get impl _ ⟨hroot', hw'⟩) ?_
    rintro r w₁ ⟨hw₁, hans⟩
    cases r with
    | error e => exact delivers_error hw₁
    | ok p =>
      obtain ⟨_, c, _, _, hc, rfl⟩ := hans rfl _ rfl
      have hp := Placed.emplace_impl 0 T c.ptr_ w₁
      have hhas : ((w₁.emplace_impl 0 T c.ptr_).inj 0).typeMap_.lookup T =
          some (((w₁.inj 0).typeMap_.lookup T).getD ⟨c.ptr_, false⟩) := by
        rw [World.emplace_impl, World.onTypeMap_inj_self]
        exact TypeMap.emplace_impl_lookup _ T _
      have hput : Wired R (w₁.emplace_impl 0 T c.ptr_) := by
        refine hw₁.placed hp fun c' hnone hc' => ?_
        rw [hhas, hnone] at hc'
        cases hc'
        refine ⟨?_, fun impl' hi => ?_, fun body a hb => ?_⟩
        · rintro U a ⟨body, hb, _⟩
          rw [hl] at hb
          cases hb
        · rw [hl] at hi
          cases hi
          exact ⟨c, hp.lookup_some hc, rfl⟩
        · rw [hl] at hb
          cases hb
      refine ⟨hput.same rfl ⟨_, rfl⟩, fun _ _ hnone => ?_⟩
      rw [World.emit_inj, hhas] at hnone
      cases hnone
  · subst hb
    have h0 : 0 ≠ (w.emit (.recipe T 0 0)).count := Nat.ne_of_lt hroot.lt
    refine ⟨hw'.same ?_ ⟨_, rfl⟩, fun _ _ _ => .plain (Or.inr hl)⟩
    rw [World.emit_inj, World.newChild_inj_ne _ _ _ h0]

theorem inject_wires (hext : Extends rec) (hrec : Wires R rec) (d : DepType_t)
    (hroot : Rooted R w) (hw : Wired R w) :
    wp (inject_ ty rec 0 T d) (fun _ w' => Wired R w') w := by
  refine wp_inject ty rec (fun owner recipe hf => ?_) (fun e _ _ => hw) (fun hf _ _ _ => ?_)
    fun hf _ _ _ => ?_
  · rw [find_recipe_root hroot] at hf
    cases hl : R.lookup T with
    | none =>
      rw [hl] at hf
      cases hf
    | some recipe' =>
      rw [hl] at hf
      cases hf
      refine wp_mono (recipeClosure_wires hext hrec hl hroot hw) ?_
      rintro r w₁ ⟨hw₁, hgiven⟩
      cases r with
      | error e => exact hw₁
      | ok c =>
        refine wp_place ty (fun _ => hw₁.same rfl ⟨_, rfl⟩) (fun _ _ => hw₁) fun _ _ => ?_
        have hp := Placed.emplace_ptr 0 T c.ptr_ w₁
        refine hw₁.placed hp fun c' hnone hc' => ?_
        rw [emplace_ptr_lookup_self, hnone] at hc'
        cases hc'
        exact (hgiven c rfl hnone).later hp.trace fun U c' h => hp.lookup_some h
  · exact wp_createInstance ty (fun _ _ => hw) fun _ => hw.same rfl ⟨_, rfl⟩
  · have hl : R.lookup T = none := by
      rw [find_recipe_root hroot] at hf
      simpa using hf
    refine wp_mono (emplaceDefault_placed 0 T w) ?_
    intro r w₁ hp
    exact hw.placed hp fun c _ _ => .plain (Or.inl hl)

theorem makeDependency_wires (hext : Extends rec) (hrec : Wires R rec) (d : DepType_t)
    (hroot : Rooted R w) (hw : Wired R w) :
    wp (makeDependency_ ty rec 0 T d) (fun _ w' => Wired R w') w := by
  refine wp_makeDependency ty rec (fun _ _ => hw) fun _ => ?_
  have hent : Wired R (enter 0 T w) := hw.same (enter_typeMap 0 0 T w) List.prefix_rfl
  refine wp_mono (inject_wires hext hrec d (hroot.ext (Ext.enter 0 T w)) hent) ?_
  intro r w₁ hw₁
  cases r with
  | error e => exact hw₁
  | ok c =>
    refine hw₁.same (leave_typeMap 0 0 T d _ w₁) ?_
    rw [leave_trace]

theorem callBody_wires (hext : Extends rec) (hrec : Wires R rec) : Wires R (callBody ty rec) := by
  rintro kind T w ⟨hroot, hw⟩
  have hemit : ∀ e, Rooted R (w.emit e) ∧ Wired R (w.emit e) := fun e =>
    ⟨hroot.stays ((Placed.refl 0 T w).emit e), hw.same rfl ⟨_, rfl⟩⟩
  have href : ∀ u, w.trace <+: u.trace → Wired R u → wp (refOf 0 T) (fun r w' => Wired R w' ∧
      (Kind.get = .get → ∀ p, r = .ok p → GaveOut w T p w')) u := by
    rintro u ⟨seg, hs⟩ hu
    refine wp_refOf (fun _ => ⟨hu, fun _ p hp => ?_⟩) fun c hc => ⟨hu.same rfl ⟨_, rfl⟩, ?_⟩
    · cases hp
    · intro _ p hp
      cases hp
      refine ⟨seg ++ [.got 0 T c.ptr_], c, ?_, by simp, hc, rfl⟩
      rw [World.emit_trace, ← hs, List.append_assoc]
  cases kind with
  | get =>
    refine wp_get ty rec (fun _ _ => href _ ⟨_, rfl⟩ (hemit _).2) (fun _ q hq _ => ?_)
      fun hnone _ => ?_
    · rw [hroot.root] at hq
      cases hq
    · obtain ⟨hroot', hw'⟩ := hemit (.asked .get 0 T)
      refine wp_mono (wp_and (makeDependency_wires hext hrec .REFERENCE hroot' hw')
        (makeDependency_ext hext 0 T .REFERENCE _ hroot'.wf hroot'.lt fun _ => hnone)) ?_
      rintro r w₁ ⟨hw₁, he⟩
      cases r with
      | error e =>
        refine ⟨hw₁, fun _ p hp => ?_⟩
        cases hp
      | ok c =>
        have ht : w.trace <+: (w.emit (.asked .get 0 T)).trace := ⟨_, rfl⟩
        exact href w₁ (ht.trans he.trace) hw₁
  | creat =>
    obtain ⟨hroot', hw'⟩ := hemit (.asked .creat 0 T)
    refine wp_creat ty rec (wp_mono (makeDependency_wires hext hrec .NEW_VALUE hroot' hw') ?_)
    intro r w₁ hw₁
    cases r with
    | error e => exact ⟨hw₁, by simp⟩
    | ok c => exact ⟨fun _ => ⟨hw₁, by simp⟩, fun _ => ⟨hw₁, by simp⟩⟩

theorem exec_wires (fuel : ℕ) : Wires R (exec ty fuel) := by
  induction fuel with
  | zero => intro kind T w _ r w' h; cases h
  | succ fuel ih => exact callBody_wires (exec_ext fuel) ih

theorem call_wired (ty : Types) (hroot : Rooted R w) (hw : Wired R w) (kind : Kind) (T : Hash_t) :
    Wired R (w.call ty ⟨kind, 0, T⟩).2 :=
  call_of_wp hroot.wf hroot.lt (Q := fun _ w' => Wired R w') fun fuel =>
    wp_mono (exec_wires fuel kind T w ⟨hroot, hw⟩) fun _ _ h => h.1

end

theorem insertRecipe_wired {R : AList fun _ : Hash_t => Recipe} {w : World} (hw : Wired R w)
    (T : Hash_t) (recipe : Recipe) (hnone : (w.inj 0).typeMap_.lookup T = none) :
    Wired (R.insert T recipe) (w.insertRecipe 0 T recipe) := by
  have hm : ((w.insertRecipe 0 T recipe).inj 0).typeMap_ = (w.inj 0).typeMap_ := by
    simp [insertRecipe_inj]
  have ht : w.trace <+: (w.insertRecipe 0 T recipe).trace := by
    unfold World.insertRecipe
    dsimp only
    split
    · exact ⟨_, rfl⟩
    · exact List.prefix_rfl
  intro V c hl
  rw [hm] at hl
  have hV : V ≠ T := by
    rintro rfl
    rw [hnone] at hl
    cases hl
  have hR : (R.insert T recipe).lookup V = R.lookup V := AList.lookup_insert_ne hV
  have hfit : Fit R (w.insertRecipe 0 T recipe) V c := by
    refine (hw V c hl).later ht fun U c' hc' => ?_
    rwa [hm]
  refine ⟨?_, fun impl hi => hfit.bound impl (hR ▸ hi),
    fun body a hb => hfit.owned body a (hR ▸ hb)⟩
  rintro U a ⟨body, hb, hneeds⟩
  exact hfit.built U a ⟨body, hR ▸ hb, hneeds⟩

theorem root_wired : Wired (World.root.inj 0).recipeMap_ World.root := by
  intro T c hl
  obtain ⟨rfl, _⟩ := Injector.construct_entry hl
  exact .plain (Or.inr rfl)

/-! ### The order of deletion -/

/-- The instance of `T` is built with that of `U`, or is the same one. -/
def Rests (R : AList fun _ : Hash_t => Recipe) (T U : Hash_t) : Prop :=
  Demands R T U ∨ R.lookup T = some (.bind U)

/-- However the session goes on after `w`, `a` is deleted before `d`. -/
def GoesFirst (ty : Types) (w : World) (a d : Addr) : Prop :=
  ∀ w', Inv ty w' → w.trace <+: w'.trace →
    ∀ p q, w'.trace = p ++ .destroyed d :: q → .destroyed a ∈ p

theorem GoesFirst.trans {ty : Types} {w : World} {a d e : Addr} (h : GoesFirst ty w a d)
    (h' : GoesFirst ty w d e) : GoesFirst ty w a e := by
  intro w' hinv ht p q hs
  obtain ⟨p₁, p₂, rfl⟩ := List.append_of_mem (h' w' hinv ht p q hs)
  have ha := h w' hinv ht p₁ (p₂ ++ .destroyed e :: q) (by rw [hs]; simp)
  exact List.mem_append_left _ ha

section
variable {ty : Types} {R : AList fun _ : Hash_t => Recipe} {w : World} {T U : Hash_t}
  {c : TypeContainer} {a : Addr}

theorem demands_before (hS : Stocked R w) (hw : Wired R w) (hlive : Live ty 0 w)
    (hd : Demands R T U) (hl : (w.inj 0).typeMap_.lookup T = some c) (ha : c.ptr_ = some a) :
    ∃ c' d, (w.inj 0).typeMap_.lookup U = some c' ∧ c'.ptr_ = some d ∧ GoesFirst ty w a d := by
  have hfit := hw T c hl
  obtain ⟨c', hc', hbuilt⟩ := hfit.built U a hd ha
  obtain ⟨d, hp⟩ := Option.isSome_iff_exists.mp (hS.nonNull U c' hc')
  have hc : c = ⟨some a, true⟩ := by
    obtain ⟨body, hb, _⟩ := hd
    cases c with
    | mk p b =>
      have hb' := hfit.owned body a hb ha
      cases ha
      cases hb'
      rfl
  have hm : Manages w 0 T a := (hlive.inv.owned 0 T a hlive.lt hlive.live).mpr (hc ▸ hl)
  refine ⟨c', d, hc', hp, ?_⟩
  rintro w' hinv ⟨seg, ht⟩ p q hs
  have hm' : Manages w' 0 T a := by
    rw [Manages, ← ht]
    exact List.mem_append_left _ hm
  exact hinv.order 0 T a d hm' (ht ▸ (hbuilt d hp).append seg) p q hs

/-- Along the requests of the recipes, through the interfaces that are bound. -/
theorem rests_before (hS : Stocked R w) (hw : Wired R w) (hlive : Live ty 0 w)
    (h : Relation.TransGen (Rests R) T U) (hfn : ∃ body, R.lookup T = some (.fn body))
    (hl : (w.inj 0).typeMap_.lookup T = some c) (ha : c.ptr_ = some a) :
    ∃ c' d, (w.inj 0).typeMap_.lookup U = some c' ∧ c'.ptr_ = some d ∧ GoesFirst ty w a d := by
  induction h with
  | single hr =>
    rcases hr with hd | hb
    · exact demands_before hS hw hlive hd hl ha
    · obtain ⟨body, hl'⟩ := hfn
      cases hl'.symm.trans hb
  | tail _ hr ih =>
    obtain ⟨cV, dV, hcV, hdV, hgo⟩ := ih
    rcases hr with hd | hb
    · obtain ⟨c', d, hc', hp, hgo'⟩ := demands_before hS hw hlive hd hcV hdV
      exact ⟨c', d, hc', hp, hgo.trans hgo'⟩
    · obtain ⟨c', hc', hp⟩ := (hw _ cV hcV).bound _ hb
      exact ⟨c', dV, hc', hp.trans hdV, hgo⟩

end
end Omulator.Di
