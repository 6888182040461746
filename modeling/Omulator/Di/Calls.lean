import Omulator.Di.Injector
import Mathlib.Tactic.ByContra

/-!
# What a call can do

Rules for the pieces of `get` and `creat`, and the changes that every call,
however it ends, leaves in the world: instances and list entries are only added,
a type whose injection is under way gets no instance of its own, and nothing
below the injector that was asked is touched.
-/

namespace Omulator.Di
open Omulator.Lib Comp

/-! ### Adding to a type map -/

/-- From `w` to `w'` at most an entry for `T` is added to the type map of `i`. -/
structure Placed (i : ℕ) (T : Hash_t) (w w' : World) : Prop where
  count : w'.count = w.count
  fresh : w.fresh ≤ w'.fresh
  trace : w.trace <+: w'.trace
  others : ∀ j, j ≠ i → w'.inj j = w.inj j
  self : w'.inj i = { w.inj i with typeMap_ := (w'.inj i).typeMap_ }
  adds : (w.inj i).typeMap_.Adds T (w'.inj i).typeMap_

namespace Placed
variable {i : ℕ} {T : Hash_t} {w w' : World}

theorem refl (i : ℕ) (T : Hash_t) (w : World) : Placed i T w w :=
  ⟨rfl, le_rfl, List.prefix_rfl, fun _ _ => rfl, rfl, .refl T _⟩

theorem onTypeMap (i : ℕ) (T : Hash_t) (w : World) (g : TypeMap → TypeMap × List Addr)
    (h : ∀ m : TypeMap, m.Adds T (g m).1) : Placed i T w (w.onTypeMap i g) where
  count := rfl
  fresh := le_rfl
  trace := ⟨_, rfl⟩
  others j hj := by simp [hj]
  self := by simp
  adds := by simpa using h (w.inj i).typeMap_

theorem emit (h : Placed i T w w') (e : Event) : Placed i T w (w'.emit e) :=
  { h with trace := h.trace.trans ⟨_, rfl⟩ }

theorem destroyAll (h : Placed i T w w') (as : List Addr) : Placed i T w (w'.destroyAll as) :=
  { h with trace := h.trace.trans ⟨_, rfl⟩ }

theorem of_alloc (h : Placed i T w.alloc w') : Placed i T w w' :=
  { h with fresh := (Nat.le_succ _).trans h.fresh }

theorem emplace_impl (i : ℕ) (T : Hash_t) (p : Option Addr) (w : World) :
    Placed i T w (w.emplace_impl i T p) :=
  onTypeMap i T w _ fun m => m.adds_emplace_impl T p

theorem emplace_ptr (i : ℕ) (T : Hash_t) (p : Option Addr) (w : World) :
    Placed i T w (w.emplace_ptr i T p) := by
  have h := onTypeMap i T w (·.emplace_ptr T p) fun m => m.adds_emplace_ptr T p
  unfold World.emplace_ptr
  cases p with
  | none => exact h
  | some a =>
    dsimp only
    split
    · exact h
    · exact h.emit _

theorem stays (h : Placed i T w w') (j : ℕ) :
    (w'.inj j).recipeMap_ = (w.inj j).recipeMap_ ∧
    (w'.inj j).invocationList_ = (w.inj j).invocationList_ ∧
    (w'.inj j).typeHashStack_ = (w.inj j).typeHashStack_ ∧
    (w'.inj j).isInCycleCheck_ = (w.inj j).isInCycleCheck_ ∧
    (w'.inj j).pUpstream_ = (w.inj j).pUpstream_ := by
  by_cases hj : j = i
  · subst hj
    rw [h.self]
    exact ⟨rfl, rfl, rfl, rfl, rfl⟩
  · rw [h.others j hj]
    exact ⟨rfl, rfl, rfl, rfl, rfl⟩

theorem lookup_ne (h : Placed i T w w') {j : ℕ} {U : Hash_t} (hne : j ≠ i ∨ U ≠ T) :
    (w'.inj j).typeMap_.lookup U = (w.inj j).typeMap_.lookup U := by
  by_cases hj : j = i
  · subst hj
    exact h.adds.1 U (hne.resolve_left (fun hne => hne rfl))
  · rw [h.others j hj]

theorem lookup_some (h : Placed i T w w') {j : ℕ} {U : Hash_t} {c : TypeContainer}
    (hc : (w.inj j).typeMap_.lookup U = some c) : (w'.inj j).typeMap_.lookup U = some c := by
  by_cases hj : j = i
  · subst hj
    exact h.adds.lookup_of_some hc
  · rw [h.others j hj, hc]

end Placed

theorem emplace_ptr_lookup_self (w : World) (i : ℕ) (T : Hash_t) (p : Option Addr) :
    ((w.emplace_ptr i T p).inj i).typeMap_.lookup T =
      some (((w.inj i).typeMap_.lookup T).getD ⟨p, true⟩) := by
  have hput : ((w.onTypeMap i (·.emplace_ptr T p)).inj i).typeMap_.lookup T =
      some (((w.inj i).typeMap_.lookup T).getD ⟨p, true⟩) := by
    rw [World.onTypeMap_inj_self]
    exact TypeMap.emplace_ptr_lookup _ T p
  unfold World.emplace_ptr
  cases p with
  | none => exact hput
  | some a =>
    dsimp only
    split
    · exact hput
    · exact hput

/-! ### The rules for what `inject_` does -/

section
variable (ty : Types) (rec : Call → M (Option Addr))
variable {i o : ℕ} {T : Hash_t} {d : DepType_t} {w : World}
  {Q : Except Exn TypeContainer → World → Prop}

theorem wp_recipeClosure {recipe : Recipe}
    (h : wp (runRecipe rec o T w.trace.length recipe) (fun r w' => match r with
      | .error e => Q (.error e) w'
      | .ok p => Q (.ok ⟨p, true⟩) (w'.emit (.recipeEnd w.trace.length p)))
      (w.emit (.recipe T i o))) : wp (recipeClosure rec o T recipe i) Q w := by
  rw [recipeClosure, wp_look, wp_change, wp_andThen]
  refine wp_mono h ?_
  intro r w' hr
  cases r with
  | error e => exact hr
  | ok p => exact wp_change.mpr ((wp_ret _).mpr hr)

/-- The rule by the kind of recipe: added by `addRecipe`, by `bindImpl`, or that of `Injector`. -/
theorem wp_recipeClosure_cases {recipe : Recipe}
    (hfn : ∀ body, recipe = .fn body →
      wp (runProg rec o (body w.trace.length)) (fun r w' => match r with
        | .error e => Q (.error e) w'
        | .ok p => Q (.ok ⟨p, true⟩) (w'.emit (.recipeEnd w.trace.length p)))
        (w.emit (.recipe T i o)))
    (hbind : ∀ impl, recipe = .bind impl → wp (rec ⟨.get, o, impl⟩) (fun r w' => match r with
        | .error e => Q (.error e) w'
        | .ok p => Q (.ok ⟨none, true⟩)
            ((w'.emplace_impl o T p).emit (.recipeEnd w.trace.length none)))
        (w.emit (.recipe T i o)))
    (hchild : recipe = .child → Q (.ok ⟨some (.injector w.count), true⟩)
      (((w.emit (.recipe T i o)).newChild o).emit
        (.recipeEnd w.trace.length (some (.injector w.count))))) :
    wp (recipeClosure rec o T recipe i) Q w := by
  refine wp_recipeClosure rec ?_
  cases recipe with
  | fn body => exact hfn body rfl
  | bind impl =>
    rw [runRecipe, wp_andThen]
    refine wp_mono (hbind impl rfl) ?_
    intro r w' hr
    cases r with
    | error e => exact hr
    | ok p => exact wp_change.mpr ((wp_ret _).mpr hr)
  | child =>
    rw [runRecipe, wp_look]
    exact wp_change.mpr ((wp_ret _).mpr (hchild rfl))

theorem wp_place {c : TypeContainer}
    (habs : ty.is_abstract T = true → Q (.ok {}) (w.destroyAll c.release_))
    (hnew : ty.is_abstract T = false → d = .NEW_VALUE → Q (.ok ⟨c.ptr_, true⟩) w)
    (hput : ty.is_abstract T = false → d = .REFERENCE → Q (.ok {}) (w.emplace_ptr i T c.ptr_)) :
    wp (place ty i T d c) Q w := by
  unfold place
  by_cases hab : ty.is_abstract T = true
  · rw [if_pos hab]
    exact wp_change.mpr ((wp_ret _).mpr (habs hab))
  · have hab' := Bool.eq_false_of_not_eq_true hab
    rw [if_neg hab]
    cases d with
    | NEW_VALUE => exact (wp_ret _).mpr (hnew hab' rfl)
    | REFERENCE => exact wp_change.mpr ((wp_ret _).mpr (hput hab' rfl))

theorem wp_createInstance
    (hthrow : ∀ n, ty.ctor T w.trace.length = some n → Q (.error (.user n)) w)
    (hmade : ty.ctor T w.trace.length = none →
      Q (.ok ⟨some (.obj w.fresh), true⟩) (w.alloc.emit (.built T (.obj w.fresh)))) :
    wp (createInstance ty T) Q w := by
  rw [createInstance, wp_look]
  cases hc : ty.ctor T w.trace.length with
  | some n => exact (wp_raise _).mpr (hthrow n hc)
  | none => exact wp_change.mpr ((wp_ret _).mpr (hmade hc))

theorem wp_emplaceDefault (hhas : w.has_instance i T = true → Q (.ok {}) w)
    (hthrow : w.has_instance i T = false → ∀ n, ty.ctor T w.trace.length = some n →
      Q (.error (.user n)) (w.onTypeMap i (·.emplace T none)))
    (hmade : w.has_instance i T = false → ty.ctor T w.trace.length = none →
      Q (.ok {}) (((w.alloc.onTypeMap i (·.emplace T (some (.obj w.fresh)))).emit
        (.built T (.obj w.fresh))).emit (.managed i T (.obj w.fresh)))) :
    wp (emplaceDefault ty i T) Q w := by
  rw [emplaceDefault, wp_look]
  cases hh : w.has_instance i T with
  | true => exact (wp_ret _).mpr (hhas hh)
  | false =>
    simp only [Bool.false_eq_true, if_false]
    cases hc : ty.ctor T w.trace.length with
    | some n => exact wp_change.mpr ((wp_raise _).mpr (hthrow hh n hc))
    | none => exact wp_change.mpr ((wp_ret _).mpr (hmade hh hc))

theorem wp_inject
    (hrecipe : ∀ owner recipe, w.find_recipe_ T (i + 1) i = some (owner, recipe) →
      wp (recipeClosure rec owner T recipe i) (fun r w' => match r with
        | .error e => Q (.error e) w'
        | .ok c => wp (place ty i T d c) Q w') w)
    (hrefused : ∀ e, w.find_recipe_ T (i + 1) i = none → ty.is_abstract T = true ∧ e = .noImpl T ∨
      ty.default_initializable T = false ∧ e = .noRecipe T → Q (.error e) w)
    (hnew : w.find_recipe_ T (i + 1) i = none → ty.is_abstract T = false →
      ty.default_initializable T = true → d = .NEW_VALUE → wp (createInstance ty T) Q w)
    (hput : w.find_recipe_ T (i + 1) i = none → ty.is_abstract T = false →
      ty.default_initializable T = true → d = .REFERENCE → wp (emplaceDefault ty i T) Q w) :
    wp (inject_ ty rec i T d) Q w := by
  unfold inject_
  rw [wp_look]
  cases hf : w.find_recipe_ T (i + 1) i with
  | some found =>
    obtain ⟨owner, recipe⟩ := found
    dsimp only
    rw [wp_andThen]
    refine wp_mono (hrecipe owner recipe hf) ?_
    intro r w' hr
    cases r with
    | error e => exact hr
    | ok c => exact hr
  | none =>
    dsimp only
    by_cases hab : ty.is_abstract T = true
    · rw [if_pos hab]
      exact (wp_raise _).mpr (hrefused _ hf (Or.inl ⟨hab, rfl⟩))
    · have hab' := Bool.eq_false_of_not_eq_true hab
      rw [if_neg hab]
      by_cases hdef : ty.default_initializable T = true
      · rw [if_pos hdef]
        cases d with
        | NEW_VALUE => exact hnew hf hab' hdef rfl
        | REFERENCE => exact hput hf hab' hdef rfl
      · rw [if_neg hdef]
        exact (wp_raise _).mpr (hrefused _ hf (Or.inr ⟨Bool.eq_false_of_not_eq_true hdef, rfl⟩))

end

/-! ### Entering and leaving `makeDependency_` -/

section
variable (ty : Types) (rec : Call → M (Option Addr))

/-- The state `inject_` is run in. -/
def enter (i : ℕ) (T : Hash_t) (w : World) : World := pushType i T (setCycleCheck i true w)

/-- What is done once `inject_` has returned; `nested` is the value of
`isInCycleCheck_` before it was run. -/
def leave (i : ℕ) (T : Hash_t) (depType : DepType_t) (nested : Bool) (w : World) : World :=
  finish i T depType (if nested then w else setCycleCheck i false w)

theorem setCycleCheck_of_eq {i : ℕ} {b : Bool} {w : World}
    (h : (w.inj i).isInCycleCheck_ = b) : setCycleCheck i b w = w := by
  have hx : ({ w.inj i with isInCycleCheck_ := b } : Injector) = w.inj i := by rw [← h]
  simp only [setCycleCheck, World.upd, hx, Function.update_eq_self]

theorem wp_makeDependency {i : ℕ} {T : Hash_t} {d : DepType_t} {w : World}
    {Q : Except Exn TypeContainer → World → Prop}
    (hcycle : (w.inj i).isInCycleCheck_ = true → T ∈ (w.inj i).typeHashStack_ →
      Q (.error (.cycle T)) w)
    (hrun : ((w.inj i).isInCycleCheck_ = true → T ∉ (w.inj i).typeHashStack_) →
      wp (inject_ ty rec i T d) (fun r w' => match r with
        | .error e => Q (.error e) w'
        | .ok c => Q (.ok c) (leave i T d (w.inj i).isInCycleCheck_ w')) (enter i T w)) :
    wp (makeDependency_ ty rec i T d) Q w := by
  unfold makeDependency_
  rw [wp_look]
  cases hf : (w.inj i).isInCycleCheck_ with
  | true =>
    by_cases hT : T ∈ (w.inj i).typeHashStack_
    · simpa [hT, wp_raise] using hcycle hf hT
    · have h := hrun fun _ => hT
      rw [enter, setCycleCheck_of_eq hf] at h
      simp only [if_true, if_neg hT, wp_change, wp_andThen]
      refine wp_mono h ?_
      intro r w' hr
      cases r with
      | error e => exact hr
      | ok c => simpa [wp_change, wp_ret, leave, hf] using hr
  | false =>
    have h := hrun fun hf' => by simp [hf] at hf'
    simp only [Bool.false_eq_true, if_false, wp_change, wp_andThen]
    refine wp_mono h ?_
    intro r w' hr
    cases r with
    | error e => exact hr
    | ok c => simpa [wp_change, wp_ret, leave, hf] using hr

theorem no_instance_iff {i : ℕ} {T : Hash_t} {w : World} :
    w.has_instance i T = false ↔ (w.inj i).typeMap_.lookup T = none :=
  TypeMap.not_has_key_iff _ T

theorem wp_refOf {i : ℕ} {T : Hash_t} {w : World} {Q : Except Exn (Option Addr) → World → Prop}
    (hnone : (w.inj i).typeMap_.lookup T = none → Q (.error .outOfRange) w)
    (hsome : ∀ c, (w.inj i).typeMap_.lookup T = some c →
      Q (.ok c.ptr_) (w.emit (.got i T c.ptr_))) : wp (refOf i T) Q w := by
  rw [refOf, wp_look]
  cases hl : (w.inj i).typeMap_.lookup T with
  | none => exact (wp_raise _).mpr (hnone hl)
  | some c => exact wp_change.mpr ((wp_ret _).mpr (hsome c hl))

theorem wp_refOf_some {i : ℕ} {T : Hash_t} {w : World} {c : TypeContainer}
    {Q : Except Exn (Option Addr) → World → Prop} (hc : (w.inj i).typeMap_.lookup T = some c)
    (h : Q (.ok c.ptr_) (w.emit (.got i T c.ptr_))) : wp (refOf i T) Q w := by
  refine wp_refOf (fun hn => ?_) fun c' hc' => ?_
  · rw [hc] at hn
    cases hn
  · rw [hc] at hc'
    cases hc'
    exact h

theorem wp_get {i : ℕ} {T : Hash_t} {w : World} {Q : Except Exn (Option Addr) → World → Prop}
    (hhere : ∀ c, (w.inj i).typeMap_.lookup T = some c →
      wp (refOf i T) Q (w.emit (.asked .get i T)))
    (hparent : (w.inj i).typeMap_.lookup T = none → ∀ q, (w.inj i).pUpstream_ = some q →
      w.has_instance q T = true → wp (rec ⟨.get, q, T⟩) (fun r w' => match r with
        | .error e => Q (.error e) w'
        | .ok p => Q (.ok p) (w'.emit (.got i T p))) (w.emit (.asked .get i T)))
    (hmade : (w.inj i).typeMap_.lookup T = none →
      (∀ q, (w.inj i).pUpstream_ = some q → w.has_instance q T = false) →
      wp (makeDependency_ ty rec i T .REFERENCE) (fun r w' => match r with
        | .error e => Q (.error e) w'
        | .ok _ => wp (refOf i T) Q w') (w.emit (.asked .get i T))) :
    wp (callBody ty rec ⟨.get, i, T⟩) Q w := by
  have hasked : ∀ j, (w.emit (.asked .get i T)).has_instance j T = w.has_instance j T :=
    fun _ => rfl
  simp only [callBody, get, wp_change, wp_look, hasked, World.emit_inj]
  by_cases hhas : w.has_instance i T = true
  · obtain ⟨c, hc⟩ := (TypeMap.has_key_iff _ T).mp hhas
    rw [if_pos hhas]
    exact hhere c hc
  · have hn := no_instance_iff.mp (Bool.eq_false_of_not_eq_true hhas)
    have hmake : (∀ q, (w.inj i).pUpstream_ = some q → w.has_instance q T = false) →
        wp (andThen (makeDependency_ ty rec i T .REFERENCE) fun _ => refOf i T) Q
          (w.emit (.asked .get i T)) := by
      intro hup
      rw [wp_andThen]
      refine wp_mono (hmade hn hup) ?_
      intro r w' hr
      cases r with
      | error e => exact hr
      | ok c => exact hr
    rw [if_neg hhas]
    cases hup : (w.inj i).pUpstream_ with
    | none => exact hmake fun q hq => by simp [hup] at hq
    | some q =>
      dsimp only
      by_cases hyes : w.has_instance q T = true
      · rw [if_pos hyes, wp_andThen]
        refine wp_mono (hparent hn q hup hyes) ?_
        intro r w' hr
        cases r with
        | error e => exact hr
        | ok p => exact wp_change.mpr ((wp_ret _).mpr hr)
      · rw [if_neg hyes]
        refine hmake fun q' hq' => ?_
        obtain rfl : q = q' := by simpa [hup] using hq'
        exact Bool.eq_false_of_not_eq_true hyes

theorem wp_creat {i : ℕ} {T : Hash_t} {w : World} {Q : Except Exn (Option Addr) → World → Prop}
    (h : wp (makeDependency_ ty rec i T .NEW_VALUE) (fun r w' => match r with
      | .error e => Q (.error e) w'
      | .ok c => (c.has_value = true → Q (.ok c.ptr_) w') ∧
          (c.has_value = false → Q (.error (.creatFailed T)) w')) (w.emit (.asked .creat i T))) :
    wp (callBody ty rec ⟨.creat, i, T⟩) Q w := by
  simp only [callBody, creat, wp_change, wp_andThen]
  refine wp_mono h ?_
  intro r w' hr
  cases r with
  | error e => exact hr
  | ok c =>
    dsimp only
    by_cases hv : c.has_value = true
    · rw [if_pos hv]
      exact (wp_ret _).mpr (hr.1 hv)
    · rw [if_neg hv]
      exact (wp_raise _).mpr (hr.2 (Bool.eq_false_of_not_eq_true hv))

@[simp] theorem enter_count (i : ℕ) (T : Hash_t) (w : World) :
    (enter i T w).count = w.count := rfl

@[simp] theorem enter_fresh (i : ℕ) (T : Hash_t) (w : World) :
    (enter i T w).fresh = w.fresh := rfl

@[simp] theorem enter_trace (i : ℕ) (T : Hash_t) (w : World) :
    (enter i T w).trace = w.trace := rfl

theorem enter_inj_self (i : ℕ) (T : Hash_t) (w : World) : (enter i T w).inj i =
    { w.inj i with
      typeHashStack_ := insert T (w.inj i).typeHashStack_
      isInCycleCheck_ := true } := by
  simp [enter, pushType, setCycleCheck]

theorem enter_inj_ne {i j : ℕ} (h : j ≠ i) (T : Hash_t) (w : World) :
    (enter i T w).inj j = w.inj j := by
  simp [enter, pushType, setCycleCheck, h]

@[simp] theorem leave_count (i : ℕ) (T : Hash_t) (d : DepType_t) (b : Bool) (w : World) :
    (leave i T d b w).count = w.count := by
  cases b <;> rfl

@[simp] theorem leave_fresh (i : ℕ) (T : Hash_t) (d : DepType_t) (b : Bool) (w : World) :
    (leave i T d b w).fresh = w.fresh := by
  cases b <;> rfl

@[simp] theorem leave_trace (i : ℕ) (T : Hash_t) (d : DepType_t) (b : Bool) (w : World) :
    (leave i T d b w).trace = w.trace := by
  cases b <;> rfl

theorem leave_inj_self (i : ℕ) (T : Hash_t) (d : DepType_t) (b : Bool) (w : World) :
    (leave i T d b w).inj i =
    { w.inj i with
      typeHashStack_ := (w.inj i).typeHashStack_.erase T
      isInCycleCheck_ := b && (w.inj i).isInCycleCheck_
      invocationList_ := if d = .NEW_VALUE then (w.inj i).invocationList_
        else (w.inj i).invocationList_ ++ [T] } := by
  cases b <;> simp [leave, finish, setCycleCheck]

theorem leave_inj_ne {i j : ℕ} (h : j ≠ i) (T : Hash_t) (d : DepType_t) (b : Bool)
    (w : World) : (leave i T d b w).inj j = w.inj j := by
  cases b <;> simp [leave, finish, setCycleCheck, h]

end

theorem enter_typeMap (i j : ℕ) (T : Hash_t) (w : World) :
    ((enter i T w).inj j).typeMap_ = (w.inj j).typeMap_ := by
  by_cases hj : j = i
  · rw [hj, enter_inj_self]
  · rw [enter_inj_ne hj]

theorem enter_recipes (i j : ℕ) (T : Hash_t) (w : World) :
    ((enter i T w).inj j).recipeMap_ = (w.inj j).recipeMap_ := by
  by_cases hj : j = i
  · rw [hj, enter_inj_self]
  · rw [enter_inj_ne hj]

theorem enter_upstream (i j : ℕ) (T : Hash_t) (w : World) :
    ((enter i T w).inj j).pUpstream_ = (w.inj j).pUpstream_ := by
  by_cases hj : j = i
  · rw [hj, enter_inj_self]
  · rw [enter_inj_ne hj]

theorem leave_typeMap (i j : ℕ) (T : Hash_t) (d : DepType_t) (b : Bool) (w : World) :
    ((leave i T d b w).inj j).typeMap_ = (w.inj j).typeMap_ := by
  by_cases hj : j = i
  · rw [hj, leave_inj_self]
  · rw [leave_inj_ne hj]

theorem leave_upstream (i j : ℕ) (T : Hash_t) (d : DepType_t) (b : Bool) (w : World) :
    ((leave i T d b w).inj j).pUpstream_ = (w.inj j).pUpstream_ := by
  by_cases hj : j = i
  · rw [hj, leave_inj_self]
  · rw [leave_inj_ne hj]

theorem leave_recipes (i j : ℕ) (T : Hash_t) (d : DepType_t) (b : Bool) (w : World) :
    ((leave i T d b w).inj j).recipeMap_ = (w.inj j).recipeMap_ := by
  by_cases hj : j = i
  · rw [hj, leave_inj_self]
  · rw [leave_inj_ne hj]

/-! ### Finding a recipe -/

/-- Every injector is older than its children. -/
def World.WF (w : World) : Prop :=
  ∀ i p, i < w.count → (w.inj i).pUpstream_ = some p → p < i

/-- `j` is `i` or an ancestor of `i`. -/
inductive Anc (w : World) : ℕ → ℕ → Prop
  | self (i : ℕ) : Anc w i i
  | up {i j p : ℕ} : (w.inj i).pUpstream_ = some p → Anc w j p → Anc w j i

theorem Anc.le {w : World} (hw : w.WF) {i j : ℕ} (h : Anc w j i) (hi : i < w.count) :
    j ≤ i := by
  induction h with
  | self i => exact le_rfl
  | up hp _ ih =>
    have hlt := hw _ _ hi hp
    exact (ih (by omega)).trans (by omega)

theorem Anc.trans {w : World} {i j k : ℕ} (h : Anc w k j) (h' : Anc w j i) : Anc w k i := by
  induction h' with
  | self => exact h
  | up hp _ ih => exact .up hp (ih h)

theorem Anc.congr {w w' : World} (hw : w.WF) {i j : ℕ} (h : Anc w j i) (hi : i < w.count)
    (hup : ∀ k, k < w.count → (w'.inj k).pUpstream_ = (w.inj k).pUpstream_) : Anc w' j i := by
  induction h with
  | self => exact .self _
  | up hp _ ih =>
    have hlt := hw _ _ hi hp
    exact .up ((hup _ hi).trans hp) (ih (by omega))

theorem find_recipe_some {w : World} {T : Hash_t} {o : ℕ} {r : Recipe} :
    ∀ {n i}, w.find_recipe_ T n i = some (o, r) →
      Anc w o i ∧ (w.inj o).recipeMap_.lookup T = some r ∧
        (o = i ↔ ((w.inj i).recipeMap_.lookup T).isSome) := by
  intro n
  induction n with
  | zero => intro i h; cases h
  | succ n ih =>
    intro i h
    unfold World.find_recipe_ at h
    cases hl : (w.inj i).recipeMap_.lookup T with
    | some r' =>
      simp only [hl, Option.some.injEq, Prod.mk.injEq] at h
      obtain ⟨rfl, rfl⟩ := h
      exact ⟨.self _, hl, by simp⟩
    | none =>
      cases hp : (w.inj i).pUpstream_ with
      | none => simp [hl, hp] at h
      | some p =>
        simp only [hl, hp] at h
        obtain ⟨ha, hr, -⟩ := ih h
        refine ⟨.up hp ha, hr, ?_⟩
        simp only [Option.isSome_none, Bool.false_eq_true, iff_false]
        intro ho
        subst ho
        rw [hl] at hr
        cases hr

/-! ### The changes a call makes -/

/-- What a call on `i` may have done to the world, whether it returned or threw. -/
structure Ext (i : ℕ) (w w' : World) : Prop where
  count : w.count ≤ w'.count
  fresh : w.fresh ≤ w'.fresh
  trace : w.trace <+: w'.trace
  recipes : ∀ j < w.count, (w'.inj j).recipeMap_ = (w.inj j).recipeMap_
  upstream : ∀ j < w.count, (w'.inj j).pUpstream_ = (w.inj j).pUpstream_
  newborn : ∀ j, w.count ≤ j → j < w'.count → ∃ p ≤ i, w'.inj j = .construct j (some p)
  below : ∀ j < w.count, i < j → w'.inj j = w.inj j
  entries : ∀ j T c, j < w.count →
    (w.inj j).typeMap_.lookup T = some c → (w'.inj j).typeMap_.lookup T = some c
  listed : ∀ j < w.count, ∃ new, (w'.inj j).invocationList_ = (w.inj j).invocationList_ ++ new ∧
    ∀ H ∈ new, (w.inj j).typeMap_.lookup H = none
  path : ∀ j < w.count, (w.inj j).isInCycleCheck_ = true →
    (w'.inj j).isInCycleCheck_ = true ∧ (w.inj j).typeHashStack_ ⊆ (w'.inj j).typeHashStack_
  held : ∀ j < w.count, i ≤ j → (w.inj j).isInCycleCheck_ = true → ∀ H ∈ (w.inj j).typeHashStack_,
    (w'.inj j).typeMap_.lookup H = (w.inj j).typeMap_.lookup H

namespace Ext
variable {i : ℕ} {w w' w'' : World}

theorem refl (i : ℕ) (w : World) : Ext i w w where
  count := le_rfl
  fresh := le_rfl
  trace := List.prefix_rfl
  recipes _ _ := rfl
  upstream _ _ := rfl
  newborn j hj hj' := absurd hj' (by omega)
  below _ _ _ := rfl
  entries _ _ _ _ h := h
  listed j _ := ⟨[], by simp, by simp⟩
  path _ _ h := ⟨h, Finset.Subset.refl _⟩
  held _ _ _ _ _ _ := rfl

theorem trans (hi : i < w.count) (h : Ext i w w') (h' : Ext i w' w'') : Ext i w w'' where
  count := h.count.trans h'.count
  fresh := h.fresh.trans h'.fresh
  trace := h.trace.trans h'.trace
  recipes j hj := (h'.recipes j (by have := h.count; omega)).trans (h.recipes j hj)
  upstream j hj := (h'.upstream j (by have := h.count; omega)).trans (h.upstream j hj)
  newborn j hj hj' := by
    by_cases hlt : j < w'.count
    · obtain ⟨p, hp, hb⟩ := h.newborn j hj hlt
      exact ⟨p, hp, (h'.below j hlt (by omega)).trans hb⟩
    · exact h'.newborn j (by omega) hj'
  below j hj hij := (h'.below j (by have := h.count; omega) hij).trans (h.below j hj hij)
  entries j T c hj hc :=
    h'.entries j T c (by have := h.count; omega) (h.entries j T c hj hc)
  listed j hj := by
    obtain ⟨n₁, e₁, f₁⟩ := h.listed j hj
    obtain ⟨n₂, e₂, f₂⟩ := h'.listed j (by have := h.count; omega)
    refine ⟨n₁ ++ n₂, by rw [e₂, e₁, List.append_assoc], ?_⟩
    intro H hH
    rcases List.mem_append.mp hH with hH | hH
    · exact f₁ H hH
    · by_contra hne
      obtain ⟨c, hc⟩ := Option.ne_none_iff_exists'.mp hne
      have := h.entries j H c hj hc
      rw [f₂ H hH] at this
      cases this
  path j hj hf := by
    have h₁ := h.path j hj hf
    have h₂ := h'.path j (by have := h.count; omega) h₁.1
    exact ⟨h₂.1, h₁.2.trans h₂.2⟩
  held j hj hij hf H hH := by
    have h₁ := h.path j hj hf
    exact (h'.held j (by have := h.count; omega) hij h₁.1 H (h₁.2 hH)).trans
      (h.held j hj hij hf H hH)

theorem up {p : ℕ} (h : Ext p w w') (hp : p ≤ i) : Ext i w w' :=
  { h with
    newborn := fun j hj hj' =>
      let ⟨q, hq, hb⟩ := h.newborn j hj hj'
      ⟨q, hq.trans hp, hb⟩
    below := fun j hj hij => h.below j hj (by omega)
    held := fun j hj hij => h.held j hj (by omega) }

theorem emit (i : ℕ) (w : World) (e : Event) : Ext i w (w.emit e) :=
  { refl i w with trace := ⟨_, rfl⟩ }

theorem alloc (i : ℕ) (w : World) : Ext i w w.alloc :=
  { refl i w with fresh := Nat.le_succ _ }

theorem newChild (i : ℕ) (w : World) : Ext i w (w.newChild i) where
  count := Nat.le_succ _
  fresh := le_rfl
  trace := List.prefix_rfl
  recipes j hj := by rw [World.newChild_inj_ne _ _ _ (by omega)]
  upstream j hj := by rw [World.newChild_inj_ne _ _ _ (by omega)]
  newborn j hj hj' := by
    have hj'' : j = w.count := by simp at hj'; omega
    exact ⟨i, le_rfl, by rw [hj'', World.newChild_inj_self]⟩
  below j hj _ := World.newChild_inj_ne _ _ _ (by omega)
  entries j T c hj hc := by rw [World.newChild_inj_ne _ _ _ (by omega), hc]
  listed j hj := ⟨[], by rw [World.newChild_inj_ne _ _ _ (by omega)]; simp, by simp⟩
  path j hj hf := by
    rw [World.newChild_inj_ne _ _ _ (by omega)]
    exact ⟨hf, Finset.Subset.refl _⟩
  held j hj _ _ H _ := by rw [World.newChild_inj_ne _ _ _ (by omega)]

theorem wf (h : Ext i w w') (hi : i < w.count) (hw : w.WF) : w'.WF := by
  intro j p hj hp
  by_cases hlt : j < w.count
  · exact hw j p hlt ((h.upstream j hlt).symm.trans hp)
  · obtain ⟨q, hq, hb⟩ := h.newborn j (by omega) hj
    rw [hb] at hp
    have : q = p := Option.some.inj hp
    omega

theorem enter (i : ℕ) (T : Hash_t) (w : World) : Ext i w (enter i T w) where
  count := le_rfl
  fresh := le_rfl
  trace := List.prefix_rfl
  recipes j _ := enter_recipes i j T w
  upstream j _ := enter_upstream i j T w
  newborn j hj hj' := absurd hj' (by simp; omega)
  below j _ hij := enter_inj_ne (by omega) T w
  entries j U c _ hc := by rwa [enter_typeMap]
  listed j _ := by
    refine ⟨[], ?_, by simp⟩
    by_cases hj : j = i
    · rw [hj, enter_inj_self, List.append_nil]
    · rw [enter_inj_ne hj, List.append_nil]
  path j _ hf := by
    by_cases hj : j = i
    · subst hj
      rw [enter_inj_self]
      exact ⟨rfl, Finset.subset_insert _ _⟩
    · rw [enter_inj_ne hj]
      exact ⟨hf, Finset.Subset.refl _⟩
  held j _ _ _ H _ := by rw [enter_typeMap]

theorem placed {o : ℕ} {T : Hash_t} (h : Ext i w w') (hi : i < w.count) (ho : o ≤ i)
    (hT : (w.inj i).isInCycleCheck_ = true → T ∉ (w.inj i).typeHashStack_)
    (hp : Placed o T w' w'') : Ext i w w'' where
  count := h.count.trans hp.count.ge
  fresh := h.fresh.trans hp.fresh
  trace := h.trace.trans hp.trace
  recipes j hj := (hp.stays j).1.trans (h.recipes j hj)
  upstream j hj := (hp.stays j).2.2.2.2.trans (h.upstream j hj)
  newborn j hj hj' := by
    rw [hp.count] at hj'
    obtain ⟨p, hp', hb⟩ := h.newborn j hj hj'
    exact ⟨p, hp', (hp.others j (by omega)).trans hb⟩
  below j hj hij := (hp.others j (by omega)).trans (h.below j hj hij)
  entries j U c hj hc := hp.lookup_some (h.entries j U c hj hc)
  listed j hj := by
    rw [(hp.stays j).2.1]
    exact h.listed j hj
  path j hj hf := by
    rw [(hp.stays j).2.2.1, (hp.stays j).2.2.2.1]
    exact h.path j hj hf
  held j hj hij hf H hH := by
    have hne : j ≠ o ∨ H ≠ T := by
      by_contra hc
      push Not at hc
      obtain ⟨hjo, hHT⟩ := hc
      have hji : j = i := by omega
      subst hji hHT
      exact hT hf hH
    exact (hp.lookup_ne hne).trans (h.held j hj hij hf H hH)

theorem leave {T : Hash_t} {d : DepType_t} (h : Ext i w w') (hi : i < w.count)
    (hT : (w.inj i).isInCycleCheck_ = true → T ∉ (w.inj i).typeHashStack_)
    (hd : d = .REFERENCE → (w.inj i).typeMap_.lookup T = none) :
    Ext i w (leave i T d (w.inj i).isInCycleCheck_ w') where
  count := by rw [leave_count]; exact h.count
  fresh := by rw [leave_fresh]; exact h.fresh
  trace := by rw [leave_trace]; exact h.trace
  recipes j hj := by
    rw [leave_recipes]
    exact h.recipes j hj
  upstream j hj := by
    rw [leave_upstream]
    exact h.upstream j hj
  newborn j hj hj' := by
    rw [leave_count] at hj'
    rw [leave_inj_ne (by omega)]
    exact h.newborn j hj hj'
  below j hj hij := by
    rw [leave_inj_ne (by omega)]
    exact h.below j hj hij
  entries j U c hj hc := by
    rw [leave_typeMap]
    exact h.entries j U c hj hc
  listed j hj := by
    obtain ⟨new, hl, hn⟩ := h.listed j hj
    by_cases hji : j = i
    · subst hji
      rw [leave_inj_self]
      by_cases hdv : d = .NEW_VALUE
      · exact ⟨new, by simpa [hdv] using hl, hn⟩
      · refine ⟨new ++ [T], by simp [hdv, hl], ?_⟩
        intro H hH
        rcases List.mem_append.mp hH with hH | hH
        · exact hn H hH
        · rw [List.mem_singleton.mp hH]
          exact hd (by cases d <;> simp_all)
    · rw [leave_inj_ne hji]
      exact ⟨new, hl, hn⟩
  path j hj hf := by
    obtain ⟨hf', hs⟩ := h.path j hj hf
    by_cases hji : j = i
    · subst hji
      rw [leave_inj_self]
      refine ⟨by simp [hf, hf'], ?_⟩
      intro H hH
      exact Finset.mem_erase.mpr ⟨fun he => hT hf (he ▸ hH), hs hH⟩
    · rw [leave_inj_ne hji]
      exact ⟨hf', hs⟩
  held j hj hij hf H hH := by
    rw [leave_typeMap]
    exact h.held j hj hij hf H hH

end Ext

/-! ### Every call makes only these changes -/

section
variable {ty : Types} {rec : Call → M (Option Addr)}

/-- The induction hypothesis: what is known of the requests a call makes. -/
abbrev Extends (rec : Call → M (Option Addr)) : Prop :=
  ∀ c w, (w.WF ∧ c.inj < w.count) → wp (rec c) (fun _ w' => Ext c.inj w w') w

theorem runProg_ext (hrec : Extends rec) (i : ℕ) (p : Prog) (w : World) (hw : w.WF)
    (hi : i < w.count) : wp (runProg rec i p) (fun _ w' => Ext i w w') w := by
  induction p generalizing w with
  | new => simpa [runProg, wp_look, wp_change, wp_ret] using Ext.alloc i w
  | ret p => simpa [runProg, wp_ret] using Ext.refl i w
  | throw e => simpa [runProg, wp_raise] using Ext.refl i w
  | get U k ih =>
    rw [runProg, wp_attempt]
    refine wp_mono (hrec ⟨.get, i, U⟩ w ⟨hw, hi⟩) ?_
    intro r w' h
    exact wp_mono (ih r w' (h.wf hi hw) (Nat.lt_of_lt_of_le hi h.count)) fun _ _ h' => h.trans hi h'
  | creat U k ih =>
    rw [runProg, wp_attempt]
    refine wp_mono (hrec ⟨.creat, i, U⟩ w ⟨hw, hi⟩) ?_
    intro r w' h
    exact wp_mono (ih r w' (h.wf hi hw) (Nat.lt_of_lt_of_le hi h.count)) fun _ _ h' => h.trans hi h'

theorem recipeClosure_ext (hrec : Extends rec) (o i : ℕ) (T : Hash_t) (recipe : Recipe)
    (w : World) (hw : w.WF) (ho : o < w.count) :
    wp (recipeClosure rec o T recipe i)
      (fun _ w' => ∃ w₁, Ext o w w₁ ∧ Placed o T w₁ w') w := by
  have hemit := Ext.emit o w (.recipe T i o)
  have hw' : (w.emit (.recipe T i o)).WF := hemit.wf ho hw
  refine wp_recipeClosure_cases rec (fun body _ => ?_) (fun impl _ => ?_) fun _ => ?_
  · refine wp_mono (runProg_ext hrec o (body w.trace.length) _ hw' ho) ?_
    intro r w₁ h
    have h₁ := hemit.trans ho h
    cases r with
    | error e => exact ⟨w₁, h₁, .refl o T w₁⟩
    | ok p => exact ⟨w₁, h₁, (Placed.refl o T w₁).emit _⟩
  · refine wp_mono (hrec ⟨.get, o, impl⟩ _ ⟨hw', ho⟩) ?_
    intro r w₁ h
    have h₁ := hemit.trans ho h
    cases r with
    | error e => exact ⟨w₁, h₁, .refl o T w₁⟩
    | ok p => exact ⟨w₁, h₁, (Placed.emplace_impl o T p w₁).emit _⟩
  · exact ⟨_, hemit.trans ho (Ext.newChild o _), (Placed.refl o T _).emit _⟩

theorem place_placed (i : ℕ) (T : Hash_t) (d : DepType_t) (c : TypeContainer) (w : World) :
    wp (place ty i T d c) (fun _ w' => Placed i T w w') w := by
  refine wp_place ty (fun _ => ?_) (fun _ _ => ?_) fun _ _ => ?_
  · exact (Placed.refl i T w).destroyAll _
  · exact .refl i T w
  · exact .emplace_ptr i T _ w

theorem createInstance_placed (i : ℕ) (T : Hash_t) (w : World) :
    wp (createInstance ty T) (fun _ w' => Placed i T w w') w :=
  wp_createInstance ty (fun _ _ => .refl i T w)
    fun _ => ((Placed.refl i T w.alloc).emit _).of_alloc

theorem emplaceDefault_placed (i : ℕ) (T : Hash_t) (w : World) :
    wp (emplaceDefault ty i T) (fun _ w' => Placed i T w w') w := by
  refine wp_emplaceDefault ty (fun _ => .refl i T w) (fun _ n _ => ?_) fun _ _ => ?_
  · exact .onTypeMap i T w _ fun m => TypeMap.adds_emplace m T none
  · have hput := Placed.onTypeMap i T w.alloc _ fun m =>
      TypeMap.adds_emplace m T (some (.obj w.fresh))
    exact ((hput.emit _).emit _).of_alloc

theorem inject_ext (hrec : Extends rec) (i : ℕ) (T : Hash_t) (d : DepType_t) (w : World)
    (hw : w.WF) (hi : i < w.count)
    (hT : (w.inj i).isInCycleCheck_ = true → T ∉ (w.inj i).typeHashStack_) :
    wp (inject_ ty rec i T d) (fun _ w' => Ext i w w') (enter i T w) := by
  have hent := Ext.enter i T w
  have hwe : (enter i T w).WF := hent.wf hi hw
  refine wp_inject ty rec (fun owner recipe hfind => ?_) (fun e _ _ => hent) (fun _ _ _ _ => ?_)
    fun _ _ _ _ => ?_
  · have hle : owner ≤ i := (find_recipe_some hfind).1.le hwe hi
    refine wp_mono (recipeClosure_ext hrec owner i T recipe _ hwe (by simp; omega)) ?_
    rintro r w₂ ⟨w₁, h₁, h₂⟩
    have h := (hent.trans hi (h₁.up hle)).placed hi hle hT h₂
    cases r with
    | error e => exact h
    | ok c => exact wp_mono (place_placed i T d c w₂) fun _ _ h₃ => h.placed hi le_rfl hT h₃
  · exact wp_mono (createInstance_placed i T _) fun _ _ h => hent.placed hi le_rfl hT h
  · exact wp_mono (emplaceDefault_placed i T _) fun _ _ h => hent.placed hi le_rfl hT h

theorem makeDependency_ext (hrec : Extends rec) (i : ℕ) (T : Hash_t) (d : DepType_t) (w : World)
    (hw : w.WF) (hi : i < w.count)
    (hd : d = .REFERENCE → (w.inj i).typeMap_.lookup T = none) :
    wp (makeDependency_ ty rec i T d) (fun _ w' => Ext i w w') w := by
  refine wp_makeDependency ty rec (fun _ _ => .refl i w) fun hT => ?_
  refine wp_mono (inject_ext hrec i T d w hw hi hT) ?_
  intro r w' h
  cases r with
  | error e => exact h
  | ok c => exact h.leave hi hT hd

theorem refOf_placed (T U : Hash_t) (w : World) :
    wp (refOf 0 T) (fun _ w' => Placed 0 U w w') w :=
  wp_refOf (fun _ => .refl 0 U w) fun _ _ => (Placed.refl 0 U w).emit _

theorem refOf_ext (i : ℕ) (T : Hash_t) (w : World) :
    wp (refOf i T) (fun _ w' => Ext i w w') w :=
  wp_refOf (fun _ => .refl i w) fun _ _ => .emit i w _

theorem callBody_ext (hrec : Extends rec) : Extends (callBody ty rec) := by
  rintro ⟨kind, i, T⟩ w ⟨hw, hi⟩
  change i < w.count at hi
  have made : ∀ d, (d = .REFERENCE → (w.inj i).typeMap_.lookup T = none) → ∀ e,
      wp (makeDependency_ ty rec i T d) (fun _ w' => Ext i w w') (w.emit e) := fun d hd e =>
    wp_mono (makeDependency_ext hrec i T d (w.emit e) hw hi hd)
      fun _ _ h => (Ext.emit i w e).trans hi h
  cases kind with
  | get =>
    refine wp_get ty rec (fun c _ => ?_) (fun _ p hp _ => ?_) fun hnone _ => ?_
    · exact wp_mono (refOf_ext i T _) fun _ _ h => (Ext.emit i w _).trans hi h
    · have hlt := hw i p hi hp
      refine wp_mono (hrec ⟨.get, p, T⟩ _ ⟨(Ext.emit i w _).wf hi hw, by simp; omega⟩) ?_
      intro r w' h
      have h' := (Ext.emit i w _).trans hi (Ext.up (i := i) h (Nat.le_of_lt hlt))
      cases r with
      | error e => exact h'
      | ok v => exact h'.trans hi (Ext.emit i w' _)
    · refine wp_mono (made .REFERENCE (fun _ => hnone) _) ?_
      intro r w' h
      cases r with
      | error e => exact h
      | ok c => exact wp_mono (refOf_ext i T w') fun _ _ h' => h.trans hi h'
  | creat =>
    refine wp_creat ty rec (wp_mono (made .NEW_VALUE (by simp) _) ?_)
    intro r w' h
    cases r with
    | error e => exact h
    | ok c => exact ⟨fun _ => h, fun _ => h⟩

/-- Every call, however it ends, only makes the changes of `Ext`. -/
theorem exec_ext (fuel : ℕ) : Extends (exec ty fuel) :=
  fix_wp (fun (c : Call) (w : World) => w.WF ∧ c.inj < w.count) (fun c w _ w' => Ext c.inj w w')
    (fun _ hrec => callBody_ext hrec) fuel

end
end Omulator.Di
