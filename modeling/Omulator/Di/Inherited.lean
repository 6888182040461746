import Omulator.Di.RecipeRuns

/-!
# What `creat` leaves alone

`creat` makes no entry for its type itself. A recipe inherited from an ancestor, though, makes
its requests there and may make one: when none does, all entries for the type stay as they are.
-/

namespace Omulator.Di
open Omulator.Lib Comp

/-- The request makes an entry for `T` in the type map of an injector other than `i`, or starts
to: it is a `get<T>()` that makes an instance, or it runs a binding of `T`. -/
def Call.fillsElsewhere (i : ℕ) (T : Hash_t) (c : Call) (w : World) : Bool :=
  (c.fills w).any fun x => x.2 == T && x.1 != i

/-- `exec`, as long as no request in it fills an entry for `T` elsewhere than in `i`. -/
def execApart (ty : Types) (i : ℕ) (T : Hash_t) : ℕ → Call → M (Option Addr)
  | 0, _ => fun _ => none
  | fuel + 1, c => look fun w =>
    if c.fillsElsewhere i T w then fun _ => none else callBody ty (execApart ty i T fuel) c

/-- No request that is made in the course of a `creat<T>()` on `i` fills an entry for `T` of
another injector. -/
def Apart (ty : Types) (i : ℕ) (T : Hash_t) (w : World) : Prop :=
  ∃ fuel, (execApart ty i T fuel ⟨.creat, i, T⟩ w).isSome = true

/-- From `w` to `w'` no type map has got an entry for `T`, and no list the type. -/
def Untouched (T : Hash_t) (w w' : World) : Prop :=
  ∀ j < w.count, (w'.inj j).typeMap_.lookup T = (w.inj j).typeMap_.lookup T ∧
    ∃ new, (w'.inj j).invocationList_ = (w.inj j).invocationList_ ++ new ∧ T ∉ new

structure OnPath (i : ℕ) (T : Hash_t) (w : World) : Prop where
  wf : w.WF
  lt : i < w.count
  flag : (w.inj i).isInCycleCheck_ = true
  mem : T ∈ (w.inj i).typeHashStack_

theorem execApart_approx (ty : Types) (i : ℕ) (T : Hash_t) (fuel : ℕ) (c : Call) :
    Approx (execApart ty i T fuel c) (exec ty fuel c) := by
  induction fuel generalizing c with
  | zero => intro w x h; cases h
  | succ fuel ih =>
    intro w x h
    simp only [execApart, look] at h
    split at h
    · cases h
    · exact callBody_approx ih c w x h

section
variable {ty : Types} {rec : Call → M (Option Addr)} {w w' w'' : World} {i j : ℕ} {T U : Hash_t}

theorem OnPath.ext {k : ℕ} (h : OnPath i T w) (hk : k < w.count) (he : Ext k w w') :
    OnPath i T w' where
  wf := he.wf hk h.wf
  lt := Nat.lt_of_lt_of_le h.lt he.count
  flag := (he.path i h.lt h.flag).1
  mem := (he.path i h.lt h.flag).2 h.mem

namespace Untouched

theorem of_inj (h : w'.inj = w.inj) : Untouched T w w' := by
  intro j _
  rw [h]
  exact ⟨rfl, [], by simp, by simp⟩

theorem refl (T : Hash_t) (w : World) : Untouched T w w := of_inj rfl

theorem trans (h : Untouched T w w') (h' : Untouched T w' w'') (hc : w.count ≤ w'.count) :
    Untouched T w w'' := by
  intro j hj
  obtain ⟨hl, new, hn, hT⟩ := h j hj
  obtain ⟨hl', new', hn', hT'⟩ := h' j (by omega)
  exact ⟨hl'.trans hl, new ++ new', by rw [hn', hn, List.append_assoc], by simp [hT, hT']⟩

theorem placed {o : ℕ} (h : Placed o U w w') (hU : U ≠ T) : Untouched T w w' := by
  intro j _
  exact ⟨h.lookup_ne (Or.inr hU.symm), [], by rw [(h.stays j).2.1]; simp, by simp⟩

theorem enter (j : ℕ) (T U : Hash_t) (w : World) : Untouched T w (enter j U w) := by
  intro k _
  rw [enter_typeMap]
  refine ⟨rfl, [], ?_, by simp⟩
  by_cases hk : k = j
  · rw [hk, enter_inj_self, List.append_nil]
  · rw [enter_inj_ne hk, List.append_nil]

theorem leave {d : DepType_t} (hU : U ≠ T ∨ d = .NEW_VALUE) (j : ℕ) (b : Bool) (w : World) :
    Untouched T w (leave j U d b w) := by
  intro k _
  rw [leave_typeMap]
  refine ⟨rfl, ?_⟩
  by_cases hk : k = j
  · subst hk
    rw [leave_inj_self]
    by_cases hd : d = .NEW_VALUE
    · exact ⟨[], by simp [hd], by simp⟩
    · exact ⟨[U], by simp [hd], by simpa using (hU.resolve_right hd).symm⟩
  · rw [leave_inj_ne hk]
    exact ⟨[], by simp, by simp⟩

theorem newChild (T : Hash_t) (o : ℕ) (w : World) : Untouched T w (w.newChild o) := by
  intro j hj
  rw [World.newChild_inj_ne _ _ _ (by omega)]
  exact ⟨rfl, [], by simp, by simp⟩

end Untouched

abbrev Spares (i : ℕ) (T : Hash_t) (rec : Call → M (Option Addr)) : Prop :=
  ∀ c w, OnPath i T w → c.inj ≤ i → wp (rec c) (fun _ u => Untouched T w u) w

theorem runProg_spares (hext : Extends rec) (hrec : Spares i T rec) (hj : j ≤ i) (p : Prog)
    (w : World) (h : OnPath i T w) : wp (runProg rec j p) (fun _ u => Untouched T w u) w := by
  have hlt : j < w.count := Nat.lt_of_le_of_lt hj h.lt
  induction p generalizing w with
  | new => exact wp_look.mpr (wp_change.mpr ((wp_ret _).mpr (.of_inj rfl)))
  | ret p => exact (wp_ret _).mpr (.refl T w)
  | throw e => exact (wp_raise _).mpr (.refl T w)
  | get V k ih | creat V k ih =>
    rw [runProg, wp_attempt]
    refine wp_mono (wp_and (hext _ w ⟨h.wf, hlt⟩) (hrec _ w h hj)) ?_
    rintro r u ⟨he, hu⟩
    refine wp_mono (ih r u (h.ext hlt he) (Nat.lt_of_lt_of_le hlt he.count)) ?_
    intro r' u' hu'
    exact hu.trans hu' he.count

theorem recipeClosure_spares (hext : Extends rec) (hrec : Spares i T rec) {o : ℕ} (ho : o ≤ i)
    (recipe : Recipe) (hU : U ≠ T ∨ ∀ impl, recipe ≠ .bind impl) (h : OnPath i T w) :
    wp (recipeClosure rec o U recipe j) (fun _ u => Untouched T w u) w := by
  have hlt : o < w.count := Nat.lt_of_le_of_lt ho h.lt
  have hstart : OnPath i T (w.emit (.recipe U j o)) := ⟨h.wf, h.lt, h.flag, h.mem⟩
  refine wp_recipeClosure_cases rec (fun body _ => ?_) (fun impl hr => ?_) fun _ => ?_
  · refine wp_mono (runProg_spares hext hrec ho _ _ hstart) ?_
    intro r u hu
    have hu' : Untouched T w u := hu
    cases r with
    | error e => exact hu'
    | ok p => exact hu'
  · have hne : U ≠ T := hU.resolve_right fun hno => hno impl hr
    refine wp_mono (wp_and (hext ⟨.get, o, impl⟩ _ ⟨hstart.wf, hlt⟩)
      (hrec ⟨.get, o, impl⟩ _ hstart ho)) ?_
    rintro r u ⟨he, hu⟩
    have hu' : Untouched T w u := hu
    cases r with
    | error e => exact hu'
    | ok p => exact hu'.trans (.placed ((Placed.emplace_impl o U p u).emit _) hne) he.count
  · have hnew : Untouched T w ((w.emit (.recipe U j o)).newChild o) := .newChild T o _
    exact hnew

theorem place_spares {d : DepType_t} (hU : U ≠ T ∨ d = .NEW_VALUE) (j : ℕ) (c : TypeContainer)
    (w : World) : wp (place ty j U d c) (fun _ u => Untouched T w u) w := by
  rcases hU with hU | rfl
  · exact wp_mono (place_placed j U d c w) fun _ _ hp => .placed hp hU
  · exact wp_place ty (fun _ => .of_inj rfl) (fun _ _ => .refl T w) fun _ hr => by cases hr

theorem inject_spares {d : DepType_t} (hext : Extends rec) (hrec : Spares i T rec) (hj : j ≤ i)
    (h : OnPath i T w)
    (hU : U ≠ T ∨ d = .NEW_VALUE ∧ ∀ o impl, w.find_recipe_ U (j + 1) j ≠ some (o, .bind impl)) :
    wp (inject_ ty rec j U d) (fun _ u => Untouched T w u) w := by
  have hnew : U ≠ T ∨ d = .NEW_VALUE := hU.imp_right And.left
  have hlt : j < w.count := Nat.lt_of_le_of_lt hj h.lt
  refine wp_inject ty rec (fun o recipe hf => ?_) (fun e _ _ => .refl T w) (fun _ _ _ _ => ?_)
    fun _ _ _ hr => ?_
  · have ho : o ≤ j := (find_recipe_some hf).1.le h.wf hlt
    have hbind : U ≠ T ∨ ∀ impl, recipe ≠ .bind impl := by
      refine hU.imp_right fun hno impl he => ?_
      rw [he] at hf
      exact hno.2 o impl hf
    refine wp_mono (wp_and (recipeClosure_ext hext o j U recipe w h.wf (by omega))
      (recipeClosure_spares (j := j) hext hrec (ho.trans hj) recipe hbind h)) ?_
    rintro r u ⟨⟨v, he, hp⟩, hu⟩
    cases r with
    | error e => exact hu
    | ok c =>
      have hcount : w.count ≤ u.count := he.count.trans hp.count.ge
      exact wp_mono (place_spares hnew j c u) fun _ _ hu' => hu.trans hu' hcount
  · exact wp_createInstance ty (fun _ _ => .refl T w) fun _ => .of_inj rfl
  · have hne : U ≠ T := hnew.resolve_right (by simp [hr])
    exact wp_mono (emplaceDefault_placed j U w) fun _ _ hp => .placed hp hne

theorem makeDependency_spares {d : DepType_t} (hext : Extends rec) (hrec : Spares i T rec)
    (hj : j ≤ i) (h : OnPath i T w)
    (hU : U ≠ T ∨ j = i ∨
      d = .NEW_VALUE ∧ ∀ o impl, w.find_recipe_ U (j + 1) j ≠ some (o, .bind impl)) :
    wp (makeDependency_ ty rec j U d) (fun _ u => Untouched T w u) w := by
  have hlt : j < w.count := Nat.lt_of_le_of_lt hj h.lt
  refine wp_makeDependency ty rec (fun _ _ => .refl T w) fun hcycle => ?_
  -- on `i` itself the type is on the path, and the request would have been refused
  have hU' : U ≠ T ∨
      d = .NEW_VALUE ∧ ∀ o impl, w.find_recipe_ U (j + 1) j ≠ some (o, .bind impl) := by
    rcases hU with hU | rfl | hU
    · exact Or.inl hU
    · exact Or.inl fun he => hcycle h.flag (he ▸ h.mem)
    · exact Or.inr hU
  have hent : OnPath i T (enter j U w) := h.ext hlt (.enter j U w)
  have hbind : U ≠ T ∨ d = .NEW_VALUE ∧
      ∀ o impl, (enter j U w).find_recipe_ U (j + 1) j ≠ some (o, .bind impl) := by
    rw [find_recipe_congr (w := w) U (fun k => enter_recipes j k U w)
      (fun k => enter_upstream j k U w) (j + 1) j]
    exact hU'
  refine wp_mono (wp_and (inject_ext hext j U d w h.wf hlt hcycle)
    (inject_spares hext hrec hj hent hbind)) ?_
  rintro r u ⟨he, hu⟩
  have hin : Untouched T w u := (Untouched.enter j T U w).trans hu le_rfl
  cases r with
  | error e => exact hin
  | ok c => exact hin.trans (.leave (hU'.imp_right And.left) j _ u) he.count

theorem refOf_spares (T : Hash_t) (j : ℕ) (U : Hash_t) (w : World) :
    wp (refOf j U) (fun _ u => Untouched T w u) w := by
  exact wp_refOf (fun _ => .refl T w) fun _ _ => .of_inj rfl

theorem find_recipe_emit (w : World) (e : Event) (T : Hash_t) (n j : ℕ) :
    (w.emit e).find_recipe_ T n j = w.find_recipe_ T n j :=
  @find_recipe_congr w (w.emit e) T (fun _ => rfl) (fun _ => rfl) n j

theorem not_fillsElsewhere {c : Call} (hw : w.WF) (hc : c.inj < w.count) (hj : c.inj ≤ i)
    (hm : c.makes w = true) (hno : c.fillsElsewhere i T w = false) :
    c.type ≠ T ∨ c.inj = i ∨
      c.kind = .creat ∧
        ∀ o impl, w.find_recipe_ c.type (c.inj + 1) c.inj ≠ some (o, .bind impl) := by
  by_cases hT : c.type = T
  · by_cases hi : c.inj = i
    · exact Or.inr (Or.inl hi)
    · have hall : ∀ x ∈ c.fills w, x.2 = T → x.1 = i := by
        intro x hx hx2
        simp only [Call.fillsElsewhere, List.any_eq_false] at hno
        have hnx := hno x hx
        simpa [hx2] using hnx
      refine Or.inr (Or.inr ⟨?_, ?_⟩)
      · cases hk : c.kind with
        | creat => rfl
        | get =>
          exact absurd (hall _ ((mem_fills hm).mpr (Or.inl ⟨hk, rfl⟩)) hT) hi
      · intro o impl hf
        have hle := (find_recipe_some hf).1.le hw hc
        have ho := hall _ ((mem_fills hm).mpr (Or.inr ⟨o, binder_some.mpr ⟨impl, hf⟩, rfl⟩)) hT
        change o = i at ho
        omega
  · exact Or.inl hT

theorem callBody_spares (hext : Extends rec) (hrec : Spares i T rec) (c : Call)
    (h : OnPath i T w) (hj : c.inj ≤ i) (hno : c.fillsElsewhere i T w = false) :
    wp (callBody ty rec c) (fun _ u => Untouched T w u) w := by
  have hlt : c.inj < w.count := Nat.lt_of_le_of_lt hj h.lt
  have hasked : ∀ e, OnPath i T (w.emit e) := fun e => ⟨h.wf, h.lt, h.flag, h.mem⟩
  obtain ⟨kind, j, U⟩ := c
  cases kind with
  | creat =>
    have hmade := not_fillsElsewhere h.wf hlt hj rfl hno
    refine wp_creat ty rec (wp_mono (makeDependency_spares hext hrec hj (hasked _)
      (hmade.imp_right (Or.imp_right fun hb => ⟨rfl, by rw [find_recipe_emit]; exact hb.2⟩))) ?_)
    intro r u hu
    have hu' : Untouched T w u := hu
    cases r with
    | error e => exact hu'
    | ok c => exact ⟨fun _ => hu', fun _ => hu'⟩
  | get =>
    refine wp_get ty rec (fun c _ => ?_) (fun _ q hq _ => ?_) fun hn hup => ?_
    · exact wp_mono (refOf_spares T j U _) fun _ _ hu => hu
    · have hqj := h.wf j q hlt hq
      have hqi : q ≤ i := Nat.le_trans hqj.le hj
      refine wp_mono (hrec ⟨.get, q, U⟩ _ (hasked _) hqi) ?_
      intro r u hu
      have hu' : Untouched T w u := hu
      cases r with
      | error e => exact hu'
      | ok p => exact hu'
    · have hmade := not_fillsElsewhere h.wf hlt hj (makes_get.mpr ⟨hn, hup⟩) hno
      have hne : U ≠ T ∨ j = i := by
        rcases hmade with hne | hi | hk
        · exact Or.inl hne
        · exact Or.inr hi
        · cases hk.1
      refine wp_mono (wp_and
        (makeDependency_ext hext j U .REFERENCE _ h.wf hlt fun _ => hn)
        (makeDependency_spares hext hrec hj (hasked _) (hne.imp_right Or.inl))) ?_
      rintro r u ⟨he, hu⟩
      have hu' : Untouched T w u := hu
      have hcount : w.count ≤ u.count := he.count
      cases r with
      | error e => exact hu'
      | ok c => exact wp_mono (refOf_spares T j U u) fun _ _ hr => hu'.trans hr hcount

theorem execApart_ext (ty : Types) (i : ℕ) (T : Hash_t) (fuel : ℕ) :
    Extends (execApart ty i T fuel) :=
  fun c w hw => wp_of_approx (execApart_approx ty i T fuel c) (exec_ext fuel c w hw)

theorem execApart_spares (ty : Types) (i : ℕ) (T : Hash_t) (fuel : ℕ) :
    Spares i T (execApart ty i T fuel) := by
  induction fuel with
  | zero => intro c w _ _ r u h; cases h
  | succ fuel ih =>
    intro c w h hj r u hrun
    simp only [execApart, look] at hrun
    split at hrun
    · cases hrun
    · rename_i hno
      exact callBody_spares (execApart_ext ty i T fuel) ih c h hj (by simpa using hno) r u hrun

/-- A `creat<T>()` that returns, with no other `T` made in its course, leaves all `T` alone. -/
theorem apart_untouched (hw : w.WF) (hi : i < w.count) (ha : Apart ty i T w) {q : Option Addr}
    (hq : (w.call ty ⟨.creat, i, T⟩).1 = .ok q) :
    Untouched T w (w.call ty ⟨.creat, i, T⟩).2 := by
  have hbind : ∀ o impl, w.find_recipe_ T (i + 1) i ≠ some (o, .bind impl) := by
    intro o impl hf
    have hruns := @call_of_wp ty ⟨.creat, i, T⟩ w _ hw hi
      (fun fuel => creat_runs fuel hw hi) q hq
    simp only [hf] at hruns
    obtain ⟨a, u, _, hrec, _⟩ := hruns
    have hnone := runRecipe_bind o T _ impl _ _ _ hrec _ rfl
    cases hnone
  obtain ⟨fuel, hsome⟩ := ha
  obtain ⟨⟨r, u⟩, hrun⟩ := Option.isSome_iff_exists.mp hsome
  have hcall : w.call ty ⟨.creat, i, T⟩ = (r, u) :=
    wp_exec_call hw hi fuel r u (execApart_approx ty i T fuel _ w _ hrun)
  rw [hcall] at hq ⊢
  cases fuel with
  | zero => cases hrun
  | succ fuel =>
    simp only [execApart, look] at hrun
    split at hrun
    · cases hrun
    · have hspares := execApart_spares ty i T fuel
      have hext := execApart_ext ty i T fuel
      have hwp : wp (callBody ty (execApart ty i T fuel) ⟨.creat, i, T⟩)
          (fun res u => ∀ q, res = .ok q → Untouched T w u) w := by
        refine wp_creat ty _ (wp_makeDependency ty _ (fun _ _ q hq => by cases hq) fun hcycle => ?_)
        generalize hv : w.emit (.asked .creat i T) = v at hcycle ⊢
        have hvw : v.WF := hv ▸ hw
        have hvi : i < v.count := hv ▸ hi
        have hpath : OnPath i T (enter i T v) := by
          refine ⟨(Ext.enter i T v).wf hvi hvw, hvi, ?_, ?_⟩
          · simp [enter_inj_self]
          · simp [enter_inj_self]
        have hfind : ∀ o impl, (enter i T v).find_recipe_ T (i + 1) i ≠ some (o, .bind impl) := by
          rw [← hv, find_recipe_enter]
          exact hbind
        refine wp_mono (wp_and (inject_ext hext i T .NEW_VALUE v hvw hvi hcycle)
          (inject_spares hext hspares le_rfl hpath (Or.inr ⟨rfl, hfind⟩))) ?_
        rintro res u ⟨he, hu⟩
        have hin : Untouched T v u := (Untouched.enter i T T v).trans hu le_rfl
        have hin' : Untouched T w u := by
          rw [← hv] at hin
          exact hin
        have hcount : w.count ≤ u.count := by
          have hc := he.count
          rwa [← hv] at hc
        cases res with
        | error e =>
          intro q hq
          cases hq
        | ok c =>
          have hleft : Untouched T w (leave i T .NEW_VALUE (v.inj i).isInCycleCheck_ u) :=
            hin'.trans (.leave (Or.inr rfl) i _ u) hcount
          exact ⟨fun _ _ _ => hleft, fun _ _ _ => hleft⟩
      exact hwp r u hrun q hq

end

end Omulator.Di
