import Omulator.Di.Session

/-!
# Bound interfaces

The recipe of `bindImpl` runs on the injector `bindImpl` was called on, asks it for the
implementation and writes the entry for the interface into its map. On that injector the
interface and the implementation are one object; an injector further down finds nothing,
or a null pointer, in its own map.
-/

namespace Omulator.Di
open Omulator.Lib Comp

section
variable {ty : Types} {w w' : World} {i : ℕ} {T : Hash_t}

theorem wp_exec_call {c : Call} (hw : w.WF) (hi : c.inj < w.count) (fuel : ℕ) :
    wp (exec ty fuel c) (fun r u => w.call ty c = (r, u)) w := by
  intro r u h
  exact exec_unique (exec_eq_call ty c w hw hi (Nat.lt_succ_self _)) h

/-! ### Where `get` finds an instance -/

/-- The event says that `get` was called or returned. -/
def Event.isLookup : Event → Bool
  | .asked .get _ _ | .got _ _ _ => true
  | _ => false

/-- `get<T>()` on `i` finds `p`, in the map of `i` or in its parent's. -/
def Located (w : World) (i : ℕ) (T : Hash_t) (p : Option Addr) : Prop :=
  (∃ c, (w.inj i).typeMap_.lookup T = some c ∧ c.ptr_ = p) ∨
  ((w.inj i).typeMap_.lookup T = none ∧ ∃ u, (w.inj i).pUpstream_ = some u ∧
    ∃ c, (w.inj u).typeMap_.lookup T = some c ∧ c.ptr_ = p)

theorem Located.congr {p : Option Addr} (h : Located w i T p)
    (hup : (w'.inj i).pUpstream_ = (w.inj i).pUpstream_)
    (hi : (w'.inj i).typeMap_.lookup T = (w.inj i).typeMap_.lookup T)
    (hu : ∀ u, (w.inj i).pUpstream_ = some u →
      (w'.inj u).typeMap_.lookup T = (w.inj u).typeMap_.lookup T) : Located w' i T p := by
  rcases h with ⟨c, hc, hp⟩ | ⟨hn, u, hpu, c, hc, hp⟩
  · exact Or.inl ⟨c, hi.trans hc, hp⟩
  · exact Or.inr ⟨hi.trans hn, u, hup.trans hpu, c, (hu u hpu).trans hc, hp⟩

theorem has_instance_of_lookup {c : TypeContainer} (h : (w.inj i).typeMap_.lookup T = some c) :
    w.has_instance i T = true := (TypeMap.has_key_iff _ T).mpr ⟨c, h⟩

theorem wp_get_here {c : TypeContainer} {rec : Call → M (Option Addr)}
    {Q : Except Exn (Option Addr) → World → Prop} (hc : (w.inj i).typeMap_.lookup T = some c)
    (h : Q (.ok c.ptr_) ((w.emit (.asked .get i T)).emit (.got i T c.ptr_))) :
    wp (callBody ty rec ⟨.get, i, T⟩) Q w := by
  refine wp_get ty rec (fun _ _ => wp_refOf_some hc h) (fun hn => ?_) fun hn => ?_
  · rw [hc] at hn
    cases hn
  · rw [hc] at hn
    cases hn

theorem wp_get_parent {q : ℕ} {rec : Call → M (Option Addr)}
    {Q : Except Exn (Option Addr) → World → Prop} (hn : (w.inj i).typeMap_.lookup T = none)
    (hq : (w.inj i).pUpstream_ = some q) (hyes : w.has_instance q T = true)
    (h : wp (rec ⟨.get, q, T⟩) (fun r u => match r with
      | .error e => Q (.error e) u
      | .ok p => Q (.ok p) (u.emit (.got i T p))) (w.emit (.asked .get i T))) :
    wp (callBody ty rec ⟨.get, i, T⟩) Q w := by
  refine wp_get ty rec (fun c hc => ?_) (fun _ q' hq' _ => ?_) fun _ hup => ?_
  · rw [hn] at hc
    cases hc
  · obtain rfl : q = q' := by simpa [hq] using hq'
    exact h
  · rw [hup q hq] at hyes
    cases hyes

theorem wp_get_made {rec : Call → M (Option Addr)} {Q : Except Exn (Option Addr) → World → Prop}
    (hn : (w.inj i).typeMap_.lookup T = none)
    (hup : ∀ q, (w.inj i).pUpstream_ = some q → w.has_instance q T = false)
    (h : wp (makeDependency_ ty rec i T .REFERENCE) (fun r u => match r with
      | .error e => Q (.error e) u
      | .ok _ => wp (refOf i T) Q u) (w.emit (.asked .get i T))) :
    wp (callBody ty rec ⟨.get, i, T⟩) Q w := by
  refine wp_get ty rec (fun c hc => ?_) (fun _ q hq hyes => ?_) fun _ _ => h
  · rw [hn] at hc
    cases hc
  · rw [hup q hq] at hyes
    cases hyes

/-- The request only looked: no recipe ran, no constructor, and no injector changed. -/
structure Looked (w w' : World) : Prop where
  inj : w'.inj = w.inj
  count : w'.count = w.count
  fresh : w'.fresh = w.fresh
  trace : ∃ log, w'.trace = w.trace ++ log ∧ ∀ e ∈ log, e.isLookup = true

theorem Looked.refl (w : World) : Looked w w := ⟨rfl, rfl, rfl, [], by simp, by simp⟩

theorem Looked.emit {e : Event} (h : Looked w w') (he : e.isLookup = true) :
    Looked w (w'.emit e) := by
  obtain ⟨log, hlog, hall⟩ := h.trace
  refine ⟨h.inj, h.count, h.fresh, log ++ [e], ?_, ?_⟩
  · rw [World.emit_trace, hlog, List.append_assoc]
  · intro e' he'
    rcases List.mem_append.mp he' with he' | he'
    · exact hall e' he'
    · rwa [List.mem_singleton.mp he']

theorem Looked.trans {w'' : World} (h : Looked w w') (h' : Looked w' w'') : Looked w w'' := by
  obtain ⟨log, hlog, hall⟩ := h.trace
  obtain ⟨log', hlog', hall'⟩ := h'.trace
  refine ⟨h'.inj.trans h.inj, h'.count.trans h.count, h'.fresh.trans h.fresh, log ++ log', ?_, ?_⟩
  · rw [hlog', hlog, List.append_assoc]
  · intro e he
    rcases List.mem_append.mp he with he | he
    · exact hall e he
    · exact hall' e he

theorem located_get {p : Option Addr} (h : Located w i T p) (fuel : ℕ) :
    wp (exec ty fuel ⟨.get, i, T⟩) (fun r u => r = .ok p ∧ Looked w u) w := by
  have here : ∀ (j : ℕ) (w : World) (c : TypeContainer), (w.inj j).typeMap_.lookup T = some c →
      ∀ fuel, wp (exec ty fuel ⟨.get, j, T⟩) (fun r u => r = .ok c.ptr_ ∧ Looked w u) w := by
    intro j w c hc fuel
    cases fuel with
    | zero => intro r u hrun; cases hrun
    | succ fuel => exact wp_get_here hc ⟨rfl, ((Looked.refl w).emit rfl).emit rfl⟩
  rcases h with ⟨c, hc, rfl⟩ | ⟨hn, q, hq, c, hc, rfl⟩
  · exact here i w c hc fuel
  · cases fuel with
    | zero => intro r u hrun; cases hrun
    | succ fuel =>
      refine wp_get_parent hn hq (has_instance_of_lookup hc) ?_
      refine wp_mono (here q (w.emit (.asked .get i T)) c hc fuel) ?_
      rintro r u ⟨rfl, hu⟩
      have hasked : Looked w (w.emit (.asked .get i T)) := (Looked.refl w).emit rfl
      exact ⟨rfl, (hasked.trans hu).emit rfl⟩

theorem refOf_own (i : ℕ) (T : Hash_t) (w : World) :
    wp (refOf i T) (fun r u => ∀ p, r = .ok p →
      ∃ c, (u.inj i).typeMap_.lookup T = some c ∧ c.ptr_ = p) w := by
  refine wp_refOf (fun _ p hp => ?_) fun c hc p hp => ?_
  · cases hp
  · cases hp
    exact ⟨c, hc, rfl⟩

theorem made_own (hn : (w.inj i).typeMap_.lookup T = none)
    (hup : ∀ q, (w.inj i).pUpstream_ = some q → w.has_instance q T = false) (fuel : ℕ) :
    wp (exec ty fuel ⟨.get, i, T⟩) (fun r u => ∀ p, r = .ok p →
      ∃ c, (u.inj i).typeMap_.lookup T = some c ∧ c.ptr_ = p) w := by
  cases fuel with
  | zero => intro r u hrun; cases hrun
  | succ fuel =>
    refine wp_get_made hn hup fun r u _ => ?_
    cases r with
    | error e => intro p hp; cases hp
    | ok c => exact refOf_own i T u

theorem returned_located (fuel : ℕ) :
    wp (exec ty fuel ⟨.get, i, T⟩) (fun r u => ∀ p, r = .ok p → Located u i T p) w := by
  have stays : ∀ p, Located w i T p →
      wp (exec ty fuel ⟨.get, i, T⟩) (fun r u => ∀ p, r = .ok p → Located u i T p) w := by
    intro p hloc
    refine wp_mono (located_get hloc fuel) ?_
    rintro r u ⟨rfl, hu⟩ p' hp
    cases hp
    exact hloc.congr (by rw [hu.inj]) (by rw [hu.inj]) (by simp [hu.inj])
  cases hl : (w.inj i).typeMap_.lookup T with
  | some c => exact stays c.ptr_ (Or.inl ⟨c, hl, rfl⟩)
  | none =>
    by_cases hup : ∀ q, (w.inj i).pUpstream_ = some q → w.has_instance q T = false
    · exact wp_mono (made_own hl hup fuel) fun r u h p hp => Or.inl (h p hp)
    · push Not at hup
      obtain ⟨q, hq, hyes⟩ := hup
      obtain ⟨c, hc⟩ := (TypeMap.has_key_iff _ T).mp (Bool.eq_true_of_not_eq_false hyes)
      exact stays c.ptr_ (Or.inr ⟨hl, q, hq, c, hc, rfl⟩)

/-- What is located is what `get` gives, with no recipe run. -/
theorem located_looked {p : Option Addr} (hw : w.WF) (hi : i < w.count) (h : Located w i T p) :
    (w.call ty ⟨.get, i, T⟩).1 = .ok p ∧ Looked w (w.call ty ⟨.get, i, T⟩).2 :=
  call_of_wp (c := ⟨.get, i, T⟩) (Q := fun r u => r = .ok p ∧ Looked w u) hw hi
    fun fuel => located_get h fuel

theorem located_call {p : Option Addr} (hw : w.WF) (hi : i < w.count)
    (h : Located w i T p) : (w.call ty ⟨.get, i, T⟩).1 = .ok p := (located_looked hw hi h).1

theorem call_located {p : Option Addr} (hw : w.WF) (hi : i < w.count)
    (h : (w.call ty ⟨.get, i, T⟩).1 = .ok p) : Located (w.call ty ⟨.get, i, T⟩).2 i T p :=
  call_of_wp (c := ⟨.get, i, T⟩) (Q := fun r u => ∀ p, r = .ok p → Located u i T p) hw hi
    (fun fuel => returned_located fuel) p h

end

/-! ### The recipe of `bindImpl` -/

theorem find_recipe_congr {w w' : World} (T : Hash_t)
    (hr : ∀ j, (w'.inj j).recipeMap_ = (w.inj j).recipeMap_)
    (hu : ∀ j, (w'.inj j).pUpstream_ = (w.inj j).pUpstream_) (n i : ℕ) :
    w'.find_recipe_ T n i = w.find_recipe_ T n i := by
  induction n generalizing i with
  | zero => rfl
  | succ n ih =>
    unfold World.find_recipe_
    rw [hr, hu]
    cases (w.inj i).recipeMap_.lookup T with
    | some recipe => rfl
    | none =>
      cases (w.inj i).pUpstream_ with
      | none => rfl
      | some q => exact ih q

/-- The state in which the recipe, bound on `P` and run for a `get` on `I`, asks for the
implementation. -/
def bindingWorld (I P : ℕ) (Interface : Hash_t) (w : World) : World :=
  (enter I Interface (w.emit (.asked .get I Interface))).emit (.recipe Interface I P)

/-- `get<Interface>()` on `I`, where the nearest recipe is the binding to `Impl` made on `P` and
there is no instance. -/
structure Bound (w : World) (I P : ℕ) (Interface Impl : Hash_t) : Prop where
  wf : w.WF
  lt : I < w.count
  found : w.find_recipe_ Interface (I + 1) I = some (P, .bind Impl)
  none : ∀ j, Anc w j I → (w.inj j).typeMap_.lookup Interface = none

/-- `T` is on the path that `i` remembers of requests under way, or of one that has thrown. -/
def OnStack (w : World) (i : ℕ) (T : Hash_t) : Prop :=
  (w.inj i).isInCycleCheck_ = true ∧ T ∈ (w.inj i).typeHashStack_

instance (w : World) (i : ℕ) (T : Hash_t) : Decidable (OnStack w i T) :=
  inferInstanceAs (Decidable (_ ∧ _))

section
variable {ty : Types} {w : World} {I P : ℕ} {Interface Impl : Hash_t}

theorem Bound.anc (h : Bound w I P Interface Impl) : Anc w P I := (find_recipe_some h.found).1

theorem Bound.le (h : Bound w I P Interface Impl) : P ≤ I := h.anc.le h.wf h.lt

theorem Bound.ext (h : Bound w I P Interface Impl) : Ext I w (bindingWorld I P Interface w) :=
  ((Ext.emit I w _).trans h.lt (Ext.enter I Interface _)).trans h.lt (Ext.emit I _ _)

theorem place_ok (i : ℕ) (T : Hash_t) (d : DepType_t) (c : TypeContainer) (w : World) :
    wp (place ty i T d c) (fun r _ => ∃ c', r = .ok c') w :=
  wp_place ty (fun _ => ⟨_, rfl⟩) (fun _ _ => ⟨_, rfl⟩) fun _ _ => ⟨_, rfl⟩

end

end Omulator.Di
