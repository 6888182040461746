import Omulator.Di.Calls
import Mathlib.Algebra.BigOperators.Group.Finset.Basic
import Mathlib.Algebra.Order.BigOperators.Group.Finset

/-!
# Every call ends

A request made during an injection either goes to an older injector or is made
with one more recipe type on the stack of the same one, so the requests nest no
deeper than the recipes of the chain allow. More fuel than that changes nothing.
-/

namespace Omulator.Di
open Omulator.Lib Comp

/-! ### More fuel -/

section
variable {ty : Types} {f g : Call → M (Option Addr)}

theorem runProg_approx (h : ∀ c, Approx (f c) (g c)) (i : ℕ) (p : Prog) :
    Approx (runProg f i p) (runProg g i p) := by
  induction p with
  | new | ret | throw => exact approx_refl _
  | get U k ih | creat U k ih => exact approx_attempt (h _) fun r => ih r

theorem recipeClosure_approx (h : ∀ c, Approx (f c) (g c)) (o i : ℕ) (T : Hash_t)
    (recipe : Recipe) : Approx (recipeClosure f o T recipe i) (recipeClosure g o T recipe i) := by
  refine approx_look fun w => approx_change _ (approx_andThen ?_ fun _ => approx_refl _)
  cases recipe with
  | fn body => exact runProg_approx h o _
  | bind impl => exact approx_andThen (h _) fun _ => approx_refl _
  | child => exact approx_refl _

theorem inject_approx (h : ∀ c, Approx (f c) (g c)) (i : ℕ) (T : Hash_t) (d : DepType_t) :
    Approx (inject_ ty f i T d) (inject_ ty g i T d) := by
  refine approx_look fun w => ?_
  split
  · exact approx_andThen (recipeClosure_approx h _ i T _) fun _ => approx_refl _
  · exact approx_refl _

theorem makeDependency_approx (h : ∀ c, Approx (f c) (g c)) (i : ℕ) (T : Hash_t)
    (d : DepType_t) : Approx (makeDependency_ ty f i T d) (makeDependency_ ty g i T d) := by
  refine approx_look fun w => ?_
  split
  · split
    · exact approx_refl _
    · exact approx_change _ (approx_andThen (inject_approx h i T d) fun _ => approx_refl _)
  · exact approx_change _ (approx_change _
      (approx_andThen (inject_approx h i T d) fun _ => approx_refl _))

theorem callBody_approx (h : ∀ c, Approx (f c) (g c)) (c : Call) :
    Approx (callBody ty f c) (callBody ty g c) := by
  obtain ⟨kind, i, T⟩ := c
  have hm : ∀ d, Approx (makeDependency_ ty f i T d) (makeDependency_ ty g i T d) :=
    makeDependency_approx h i T
  cases kind with
  | get =>
    simp only [callBody, get]
    refine approx_change _ (approx_look fun w => ?_)
    split
    · exact approx_refl _
    · split
      · exact approx_andThen (hm _) fun _ => approx_refl _
      · split
        · exact approx_andThen (h _) fun _ => approx_refl _
        · exact approx_andThen (hm _) fun _ => approx_refl _
  | creat =>
    simp only [callBody, creat]
    exact approx_change _ (approx_andThen (hm _) fun _ => approx_refl _)

end

theorem exec_mono {ty : Types} {n m : ℕ} (h : n ≤ m) (c : Call) {w : World}
    {x : Outcome × World} (hx : exec ty n c w = some x) : exec ty m c w = some x :=
  fix_mono (fun _ _ hfg => callBody_approx hfg) h c w x hx

theorem exec_unique {ty : Types} {n m : ℕ} {c : Call} {w : World} {x y : Outcome × World}
    (hx : exec ty n c w = some x) (hy : exec ty m c w = some y) : x = y := by
  have h₁ := exec_mono (Nat.le_max_left n m) c hx
  have h₂ := exec_mono (Nat.le_max_right n m) c hy
  rw [h₁] at h₂
  exact Option.some.inj h₂

/-! ### The bound -/

/-- How many more types the injections under way on `j` can put on its stack. -/
def room (w : World) (j : ℕ) : ℕ :=
  if (w.inj j).isInCycleCheck_ then
    ((w.inj j).recipeMap_.keys.toFinset \ (w.inj j).typeHashStack_).card
  else (w.inj j).recipeMap_.keys.toFinset.card + 1

/-- A bound on how deep the requests below a call on `i` can nest. -/
def depth (w : World) (i : ℕ) : ℕ := i + ∑ j ∈ Finset.range (i + 1), room w j

theorem room_le {i j : ℕ} {w w' : World} (h : Ext i w w') (hj : j < w.count) :
    room w' j ≤ room w j := by
  have hr := h.recipes j hj
  unfold room
  cases hf : (w.inj j).isInCycleCheck_ with
  | true =>
    obtain ⟨hf', hs⟩ := h.path j hj hf
    simp only [hf', if_true, hr]
    exact Finset.card_le_card (Finset.sdiff_subset_sdiff (Finset.Subset.refl _) hs)
  | false =>
    rw [hr]
    split
    · exact (Finset.card_le_card Finset.sdiff_subset).trans (Nat.le_succ _)
    · exact le_rfl

theorem depth_le {i j : ℕ} {w w' : World} (h : Ext i w w') (hj : j < w.count) :
    depth w' j ≤ depth w j := by
  refine Nat.add_le_add_left (Finset.sum_le_sum fun k hk => room_le h ?_) j
  have := Finset.mem_range.mp hk
  omega

theorem depth_lt_of_lt {i j : ℕ} (h : j < i) (w : World) : depth w j < depth w i := by
  have hs : ∑ k ∈ Finset.range (j + 1), room w k ≤ ∑ k ∈ Finset.range (i + 1), room w k :=
    Finset.sum_le_sum_of_subset (Finset.range_mono (by omega))
  unfold depth
  omega

theorem depth_enter {i o : ℕ} {T : Hash_t} {w : World} (ho : o ≤ i)
    (hT : (w.inj i).isInCycleCheck_ = true → T ∉ (w.inj i).typeHashStack_)
    (hk : ((w.inj o).recipeMap_.lookup T).isSome) : depth (enter i T w) o < depth w i := by
  rcases Nat.lt_or_eq_of_le ho with hlt | rfl
  · have he : depth (enter i T w) o = depth w o := by
      refine congrArg (o + ·) (Finset.sum_congr rfl fun j hj => ?_)
      have := Finset.mem_range.mp hj
      simp only [room, enter_inj_ne (show j ≠ i by omega)]
    rw [he]
    exact depth_lt_of_lt hlt w
  · refine Nat.add_lt_add_left (Finset.sum_lt_sum (fun j hj => ?_) ⟨o, by simp, ?_⟩) o
    · by_cases hjo : j = o
      · subst hjo
        simp only [room, enter_inj_self, if_true]
        split
        · exact Finset.card_le_card
            (Finset.sdiff_subset_sdiff (Finset.Subset.refl _) (Finset.subset_insert _ _))
        · exact (Finset.card_le_card Finset.sdiff_subset).trans (Nat.le_succ _)
      · simp only [room, enter_inj_ne hjo, le_refl]
    · simp only [room, enter_inj_self, if_true]
      cases hf : (w.inj o).isInCycleCheck_ with
      | true =>
        have hmem : T ∈ (w.inj o).recipeMap_.keys.toFinset :=
          List.mem_toFinset.mpr (AList.lookup_isSome.mp hk)
        refine Finset.card_lt_card (Finset.ssubset_iff_of_subset
          (Finset.sdiff_subset_sdiff (Finset.Subset.refl _) (Finset.subset_insert _ _)) |>.mpr ?_)
        exact ⟨T, Finset.mem_sdiff.mpr ⟨hmem, hT hf⟩, by simp⟩
      | false =>
        simp only [Bool.false_eq_true, if_false]
        exact Nat.lt_succ_of_le (Finset.card_le_card Finset.sdiff_subset)

/-! ### Definedness -/

section
variable {ty : Types} {rec : Call → M (Option Addr)} {n : ℕ}

/-- What a call may rely on: requests with less depth end. -/
abbrev EndsBelow (rec : Call → M (Option Addr)) (n : ℕ) : Prop :=
  ∀ c w, World.WF w → c.inj < w.count → depth w c.inj < n → Ends (rec c) w

theorem runProg_ends (hext : Extends rec) (hends : EndsBelow rec n) (i : ℕ) (p : Prog)
    (w : World) (hw : w.WF) (hi : i < w.count) (hd : depth w i < n) :
    Ends (runProg rec i p) w := by
  induction p generalizing w with
  | new => exact ends_ret _
  | ret p => exact ends_ret _
  | throw e => exact ends_raise _
  | get U k ih | creat U k ih =>
    refine ends_attempt (hends _ w hw hi hd) (wp_mono (hext _ w ⟨hw, hi⟩) ?_)
    intro r w' h
    exact ih r w' (h.wf hi hw) (Nat.lt_of_lt_of_le hi h.count)
      (Nat.lt_of_le_of_lt (depth_le h hi) hd)

theorem recipeClosure_ends (hext : Extends rec) (hends : EndsBelow rec n) (o i : ℕ) (T : Hash_t)
    (recipe : Recipe) (w : World) (hw : w.WF) (ho : o < w.count) (hd : depth w o < n) :
    Ends (recipeClosure rec o T recipe i) w := by
  have hw' : (w.emit (.recipe T i o)).WF := (Ext.emit o w _).wf ho hw
  have hrun : Ends (runRecipe rec o T w.trace.length recipe) (w.emit (.recipe T i o)) := by
    cases recipe with
    | fn body => exact runProg_ends hext hends o _ _ hw' ho hd
    | bind impl => exact ends_andThen (hends _ _ hw' ho hd) fun r t _ a _ => ends_ret _
    | child => exact ends_ret _
  exact ends_look.mpr (ends_change.mpr (ends_andThen hrun fun r t _ a _ => ends_ret _))

theorem place_ends (i : ℕ) (T : Hash_t) (d : DepType_t) (c : TypeContainer) (w : World) :
    Ends (place ty i T d c) w := by
  unfold place
  split
  · exact ends_ret _
  · cases d <;> exact ends_ret _

theorem inject_ends (hext : Extends rec) (hends : EndsBelow rec n) (i : ℕ) (T : Hash_t)
    (d : DepType_t) (w : World) (hw : w.WF) (hi : i < w.count) (hd : depth w i ≤ n)
    (hT : (w.inj i).isInCycleCheck_ = true → T ∉ (w.inj i).typeHashStack_) :
    Ends (inject_ ty rec i T d) (enter i T w) := by
  have hent := Ext.enter i T w
  have hwe : (enter i T w).WF := hent.wf hi hw
  unfold inject_
  rw [ends_look]
  split
  case h_1 owner recipe hfind =>
    obtain ⟨ha, hl, -⟩ := find_recipe_some hfind
    have hle : owner ≤ i := ha.le hwe hi
    rw [hent.recipes owner (by omega)] at hl
    have hlt := depth_enter hle hT (by rw [hl]; rfl)
    exact ends_andThen
      (recipeClosure_ends hext hends owner i T recipe _ hwe (by simp; omega) (by omega))
      fun r t _ c _ => place_ends i T d c t
  case h_2 =>
    split
    · exact ends_raise _
    · split
      · cases d with
        | NEW_VALUE =>
          simp only [createInstance, ends_look]
          split <;> simp [Ends, change, ret, raise]
        | REFERENCE =>
          simp only [emplaceDefault, ends_look]
          split
          · exact ends_ret _
          · split <;> simp [Ends, change, ret, raise]
      · exact ends_raise _

theorem makeDependency_ends (hext : Extends rec) (hends : EndsBelow rec n) (i : ℕ) (T : Hash_t)
    (d : DepType_t) (w : World) (hw : w.WF) (hi : i < w.count) (hd : depth w i ≤ n) :
    Ends (makeDependency_ ty rec i T d) w := by
  unfold makeDependency_
  rw [ends_look]
  cases hf : (w.inj i).isInCycleCheck_ with
  | true =>
    by_cases hT : T ∈ (w.inj i).typeHashStack_
    · simp only [if_true, if_pos hT]
      exact ends_raise _
    · have h : Ends (inject_ ty rec i T d) (enter i T w) :=
        inject_ends hext hends i T d w hw hi hd fun _ => hT
      rw [enter, setCycleCheck_of_eq hf] at h
      simp only [if_true, if_neg hT, ends_change]
      exact ends_andThen h fun r t _ c _ => ends_ret _
  | false =>
    simp only [Bool.false_eq_true, if_false, ends_change]
    exact ends_andThen (inject_ends hext hends i T d w hw hi hd fun h => by simp [hf] at h)
      fun r t _ c _ => ends_ret _

theorem refOf_ends (i : ℕ) (T : Hash_t) (w : World) : Ends (refOf i T) w := by
  unfold refOf
  rw [ends_look]
  split <;> simp [Ends, change, ret, raise]

theorem callBody_ends (hext : Extends rec) (hends : EndsBelow rec n) :
    EndsBelow (callBody ty rec) (n + 1) := by
  rintro ⟨kind, i, T⟩ w hw hi hd
  change i < w.count at hi
  change depth w i < n + 1 at hd
  have hm : ∀ d e, Ends (makeDependency_ ty rec i T d) (w.emit e) := fun d e =>
    makeDependency_ends hext hends i T d (w.emit e) ((Ext.emit i w e).wf hi hw) hi
      (Nat.le_of_lt_succ hd)
  cases kind with
  | get =>
    simp only [callBody, get, ends_change, ends_look]
    split
    · exact refOf_ends i T _
    · split
      · exact ends_andThen (hm _ _) fun r t _ c _ => refOf_ends i T t
      · rename_i p hp
        split
        · have hlt := hw i p hi hp
          have hdp : depth w p < depth w i := depth_lt_of_lt hlt w
          exact ends_andThen
            (hends ⟨.get, p, T⟩ _ ((Ext.emit i w _).wf hi hw) (Nat.lt_trans hlt hi)
              (show depth w p < n by omega))
            fun r t _ c _ => ends_ret _
        · exact ends_andThen (hm _ _) fun r t _ c _ => refOf_ends i T t
  | creat =>
    refine ends_andThen (hm _ _) fun r t _ c _ => ?_
    split
    · exact ends_ret _
    · exact ends_raise _

theorem exec_endsBelow (fuel : ℕ) : EndsBelow (exec ty fuel) fuel := by
  induction fuel with
  | zero => intro c w _ _ hd; omega
  | succ fuel ih => exact callBody_ends (exec_ext fuel) ih

end

/-- A top-level `get` or `creat`: what it gives back and the world it leaves. -/
def World.call (ty : Types) (c : Call) (w : World) : Outcome × World :=
  (exec ty (depth w c.inj + 1) c w).getD (.error .outOfRange, w)

/-- Every `get` and `creat`, on any injector and whatever the recipes, ends. -/
theorem exec_eq_call (ty : Types) (c : Call) (w : World) (hw : w.WF) (hi : c.inj < w.count)
    {fuel : ℕ} (hf : depth w c.inj < fuel) : exec ty fuel c w = some (w.call ty c) := by
  have h : Ends (exec ty (depth w c.inj + 1) c) w :=
    exec_endsBelow (depth w c.inj + 1) c w hw hi (Nat.lt_succ_self _)
  obtain ⟨x, hx⟩ := Option.ne_none_iff_exists'.mp h
  rw [World.call, hx]
  exact exec_mono hf c hx

theorem call_of_wp {ty : Types} {c : Call} {w : World} {Q : Outcome → World → Prop} (hw : w.WF)
    (hi : c.inj < w.count) (h : ∀ fuel, wp (exec ty fuel c) Q w) :
    Q (w.call ty c).1 (w.call ty c).2 :=
  h _ _ _ (exec_eq_call ty c w hw hi (Nat.lt_succ_self _))

theorem call_ext {ty : Types} {c : Call} {w : World} (hw : w.WF) (hi : c.inj < w.count) :
    Ext c.inj w (w.call ty c).2 :=
  call_of_wp hw hi (Q := fun _ w' => Ext c.inj w w') fun fuel => exec_ext fuel c w ⟨hw, hi⟩

end Omulator.Di
