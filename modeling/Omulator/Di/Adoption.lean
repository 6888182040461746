import Omulator.Di.Owners

/-!
# Objects handed over by a recipe

What a recipe returns is owned by a container from then on: the type map's, when the type is
concrete, and a temporary one, which deletes it at once, when the type is abstract.
-/

namespace Omulator.Di
open Omulator.Lib Comp

/-! ### Destroying an injector -/

section
variable {ty : Types} {w : World} {i : ℕ} {T : Hash_t} {a : Addr}

/-- An object with one owner, whose type stands on the list behind `l`: what was listed after it
goes before, and what was listed before it goes after. -/
theorem erased_order {l new : List Hash_t} (hl : (w.inj i).invocationList_ = l ++ T :: new)
    (hT : T ∉ new) (hown : Owns w i T a) (hone : ∀ U, Owns w i U a → U = T) :
    ∃ first rest, erased w i = first ++ a :: rest ∧ a ∉ first ∧ a ∉ rest ∧
      (∀ U b, U ∈ new → Owns w i U b → b ∈ first) ∧
      ∀ U b, U ∈ l → U ∉ new → U ≠ T → Owns w i U b → b ∈ rest := by
  let m := (TypeMap.eraseAll (w.inj i).typeMap_ new.reverse).1
  have hm : ∀ U, m.lookup U = if U ∈ new then none else (w.inj i).typeMap_.lookup U := by
    intro U
    simp only [m, TypeMap.eraseAll_lookup, List.mem_reverse]
  have hmT : m.lookup T = some ⟨some a, true⟩ := by
    rw [hm, if_neg hT]
    exact hown
  have hkey : (m.eraseKey T).2 = [a] := by
    simp [TypeMap.eraseKey, hmT, TypeContainer.release_]
  refine ⟨(TypeMap.eraseAll (w.inj i).typeMap_ new.reverse).2,
    (TypeMap.eraseAll (m.erase T) l.reverse).2, ?_, ?_, ?_, ?_, ?_⟩
  · have hrev : (l ++ T :: new).reverse = new.reverse ++ T :: l.reverse := by simp
    rw [erased, hl, hrev, TypeMap.eraseAll_append, TypeMap.eraseAll, hkey]
    rfl
  · intro ha
    obtain ⟨U, hU, hlU⟩ := TypeMap.mem_eraseAll.mp ha
    rw [hone U hlU, List.mem_reverse] at hU
    exact hT hU
  · intro ha
    obtain ⟨U, _, hlU⟩ := TypeMap.mem_eraseAll.mp ha
    by_cases hUT : U = T
    · subst hUT
      rw [AList.lookup_erase] at hlU
      cases hlU
    · rw [AList.lookup_erase_ne hUT, hm] at hlU
      split at hlU
      · cases hlU
      · exact hUT (hone U hlU)
  · intro U b hU hb
    exact TypeMap.mem_eraseAll.mpr ⟨U, by simpa using hU, hb⟩
  · intro U b hU hnew hUT hb
    refine TypeMap.mem_eraseAll.mpr ⟨U, by simpa using hU, ?_⟩
    rw [AList.lookup_erase_ne hUT, hm, if_neg hnew]
    exact hb

end

/-! ### After the object has been handed over -/

/-- `a` exists and is nobody's: no type map owns it, and it has not been deleted. -/
structure Unowned (w : World) (a : Addr) : Prop where
  allocated : ∃ n < w.fresh, a = .obj n
  left : .destroyed a ∉ w.trace
  free : ∀ j U, ¬ Owns w j U a

/-- No recipe that is run in the operation returns `a`. -/
def KeepsOff (ty : Types) (a : Addr) (s : Session) (op : Op) : Prop :=
  ∀ log, (op.run ty s.world).2.trace = s.world.trace ++ log → ∀ st, .recipeEnd st (some a) ∉ log

/-- `a` is alive and managed by `i`, and what `get<T>()` on `i` returns. -/
def ManagedBy (ty : Types) (i : ℕ) (T : Hash_t) (a : Addr) (t : Session) : Prop :=
  Owns t.world i T a ∧ .destroyed a ∉ t.world.trace ∧
    (t.world.call ty ⟨.get, i, T⟩).1 = .ok (some a)

/-- If `~Injector` of `i` runs in `t`, it deletes `a` once: after every instance that `i` has made
since `s`, and before every other one that it had in `s`. -/
def DeletedInOrder (i : ℕ) (T : Hash_t) (a : Addr) (s t : Session) : Prop :=
  ∃ p q, (t.world.destroyInjector i).trace = t.world.trace ++ (p ++ .destroyed a :: q) ∧
    .destroyed a ∉ p ∧ .destroyed a ∉ q ∧
    (∀ U b, Owns t.world i U b → (s.world.inj i).typeMap_.lookup U = none → .destroyed b ∈ p) ∧
    ∀ U b, U ≠ T → Owns s.world i U b → .destroyed b ∈ q

/-- From `s` on, where it has just been made, `a` stays the instance of `T` of `i` until `i` is
destroyed, and is deleted then, once. -/
structure Adopted (ty : Types) (i : ℕ) (T : Hash_t) (a : Addr) (s : Session) : Prop where
  managed : ∀ t, RunUnder (sessionStep ty) (KeepsOff ty a) s t → i ∉ t.destroyed →
    ManagedBy ty i T a t ∧ DeletedInOrder i T a s t
  deleted : ∀ t, RunUnder (sessionStep ty) (KeepsOff ty a) s t → i ∈ t.destroyed →
    t.world.trace.count (.destroyed a) = 1

structure Adopting (ty : Types) (i : ℕ) (T : Hash_t) (a : Addr) (s t : Session) : Prop where
  wf : t.world.WF
  lt : i < t.world.count
  booked : ∀ j < t.world.count, j ∉ t.destroyed → Booked ty t.world j
  allocated : ∃ n < t.world.fresh, a = .obj n
  owns : i ∉ t.destroyed → Owns t.world i T a
  one : ∀ j U, Owns t.world j U a → i ∉ t.destroyed ∧ j = i ∧ U = T
  left : i ∉ t.destroyed → .destroyed a ∉ t.world.trace
  gone : i ∈ t.destroyed → t.world.trace.count (.destroyed a) = 1
  list : i ∉ t.destroyed → ∃ new, (t.world.inj i).invocationList_ =
    (s.world.inj i).invocationList_ ++ new ∧ ∀ U ∈ new, (s.world.inj i).typeMap_.lookup U = none
  keep : i ∉ t.destroyed → ∀ U c, (s.world.inj i).typeMap_.lookup U = some c →
    (t.world.inj i).typeMap_.lookup U = some c

section
variable {ty : Types} {s t t' : Session} {i : ℕ} {T : Hash_t} {a : Addr}

theorem Adopting.keepsBooks (h : Adopting ty i T a s t) : KeepsBooks ty t := ⟨h.wf, h.booked⟩

/-- A call that runs no recipe that returns `a` gives `a` no new owner, and does not delete it. -/
theorem Handled.keepsOff {w w' : World} (h : Handled ty w w') (hall : ∃ n < w.fresh, a = .obj n)
    (hoff : ∀ log, w'.trace = w.trace ++ log → ∀ st, .recipeEnd st (some a) ∉ log) :
    (∀ j U, Owns w' j U a → Owns w j U a) ∧ ∃ log, w'.trace = w.trace ++ log ∧
      .destroyed a ∉ log := by
  obtain ⟨⟨log, hl⟩, _⟩ := h
  have hno := hoff log hl.trace
  refine ⟨fun j U ho => ?_, log, hl.trace, fun hd => ?_⟩
  · rcases hl.owner j U a ho with ho | ⟨n, rfl, hle⟩ | ⟨st, hst⟩
    · exact ho
    · obtain ⟨m, hm, he⟩ := hall
      cases he
      omega
    · exact absurd hst (hno st)
  · obtain ⟨st, hst⟩ := hl.destroyed a hd
    exact hno st hst

theorem Adopting.call {c : Call} (h : Adopting ty i T a s t) (hi : c.inj < t.world.count)
    (hoff : KeepsOff ty a t (.call c)) :
    Adopting ty i T a s ⟨(t.world.call ty c).2, t.destroyed⟩ := by
  have hext : Ext c.inj t.world (t.world.call ty c).2 := call_ext h.wf hi
  have hhand : Handled ty t.world (t.world.call ty c).2 := call_handles h.wf hi
  have hkept := h.keepsBooks.call hi
  have hoff' : ∀ log, (t.world.call ty c).2.trace = t.world.trace ++ log →
      ∀ st, .recipeEnd st (some a) ∉ log := hoff
  obtain ⟨howner, log, hlog, hdel⟩ := hhand.keepsOff h.allocated hoff'
  generalize (t.world.call ty c).2 = w' at hext hhand hkept howner hlog
  refine ⟨hkept.wf, Nat.lt_of_lt_of_le h.lt hext.count, hkept.booked, ?_, ?_, ?_, ?_, ?_, ?_, ?_⟩
  · obtain ⟨n, hn, ha⟩ := h.allocated
    exact ⟨n, Nat.lt_of_lt_of_le hn hext.fresh, ha⟩
  · exact fun hd => hext.entries i T _ h.lt (h.owns hd)
  · exact fun j U ho => h.one j U (howner j U ho)
  · intro hd
    change .destroyed a ∉ w'.trace
    rw [hlog, List.mem_append]
    exact fun hm => hm.elim (h.left hd) hdel
  · intro hd
    change w'.trace.count (.destroyed a) = 1
    rw [hlog, List.count_append, h.gone hd, List.count_eq_zero.mpr hdel]
  · intro hd
    obtain ⟨new, hnew, hnone⟩ := h.list hd
    obtain ⟨new', hnew', hnone'⟩ := hext.listed i h.lt
    refine ⟨new ++ new', by rw [hnew', hnew, List.append_assoc], ?_⟩
    intro U hU
    rcases List.mem_append.mp hU with hU | hU
    · exact hnone U hU
    · cases hl : (s.world.inj i).typeMap_.lookup U with
      | none => rfl
      | some c =>
        have hkeep := h.keep hd U c hl
        rw [hnone' U hU] at hkeep
        cases hkeep
  · exact fun hd U c hl => hext.entries i U c h.lt (h.keep hd U c hl)

theorem Adopting.insertRecipe (h : Adopting ty i T a s t) (k : ℕ) (U : Hash_t) (recipe : Recipe) :
    Adopting ty i T a s ⟨t.world.insertRecipe k U recipe, t.destroyed⟩ := by
  have hmap : ∀ j, ((t.world.insertRecipe k U recipe).inj j).typeMap_ =
      (t.world.inj j).typeMap_ := fun j => insertRecipe_typeMap t.world k j U recipe
  have hlist : ∀ j, ((t.world.insertRecipe k U recipe).inj j).invocationList_ =
      (t.world.inj j).invocationList_ := fun j => insertRecipe_list t.world k j U recipe
  have htrace : ∃ log, (t.world.insertRecipe k U recipe).trace = t.world.trace ++ log ∧
      .destroyed a ∉ log := by
    unfold World.insertRecipe
    dsimp only
    split
    · exact ⟨[.overriding U], rfl, by simp⟩
    · exact ⟨[], by simp, by simp⟩
  have hkept := h.keepsBooks.insertRecipe k U recipe
  have hcount := insertRecipe_count t.world k U recipe
  have hfresh := insertRecipe_fresh t.world k U recipe
  generalize t.world.insertRecipe k U recipe = w' at hmap hlist htrace hkept hcount hfresh
  obtain ⟨log, hlog, hdel⟩ := htrace
  have howns : ∀ j U b, Owns w' j U b ↔ Owns t.world j U b := by
    intro j U b
    unfold Owns
    rw [hmap]
  refine ⟨hkept.wf, hcount ▸ h.lt, hkept.booked, ?_, ?_, ?_, ?_, ?_, ?_, ?_⟩
  · obtain ⟨n, hn, ha⟩ := h.allocated
    exact ⟨n, hfresh ▸ hn, ha⟩
  · exact fun hd => (howns i T a).mpr (h.owns hd)
  · exact fun j U ho => h.one j U ((howns j U a).mp ho)
  · intro hd
    change .destroyed a ∉ w'.trace
    rw [hlog, List.mem_append]
    exact fun hm => hm.elim (h.left hd) hdel
  · intro hd
    change w'.trace.count (.destroyed a) = 1
    rw [hlog, List.count_append, h.gone hd, List.count_eq_zero.mpr hdel]
  · intro hd
    change ∃ new, (w'.inj i).invocationList_ = _ ++ new ∧ _
    rw [hlist]
    exact h.list hd
  · intro hd V c hl
    change (w'.inj i).typeMap_.lookup V = some c
    rw [hmap]
    exact h.keep hd V c hl

theorem Adopting.deletedInOrder (h : Adopting ty i T a s t) (hd : i ∉ t.destroyed)
    (hs : Booked ty s.world i) (hown : Owns s.world i T a) {l : List Hash_t}
    (hl : (s.world.inj i).invocationList_ = l ++ [T]) : DeletedInOrder i T a s t := by
  obtain ⟨new, hnew, hnone⟩ := h.list hd
  rw [hl, List.append_assoc, List.singleton_append] at hnew
  have hT : T ∉ new := by
    intro hmem
    have hfree := hnone T hmem
    rw [hown] at hfree
    cases hfree
  have hbook := h.booked i h.lt hd
  obtain ⟨first, rest, hsplit, hfirst, hrest, hlater, hearlier⟩ :=
    erased_order hnew hT (h.owns hd) fun U hU => (h.one i U hU).2.2
  obtain ⟨left, hf, hleft, _⟩ := destroyInjector_deletes t.world i
  have hanot : a ∉ left := by
    intro ha
    obtain ⟨U, hU, ho⟩ := hleft a ha
    exact hU (hbook.listed U a ho).2
  have hobj : a ≠ .injector i := by
    obtain ⟨n, _, rfl⟩ := h.allocated
    simp
  refine ⟨first.map .destroyed, (rest ++ left).map .destroyed ++ [.destroyed (.injector i)],
    ?_, ?_, ?_, ?_, ?_⟩
  · rw [hf.trace, hsplit]
    simp
  · simpa using hfirst
  · simpa [hobj] using ⟨hrest, hanot⟩
  · intro U b hb hnone'
    obtain ⟨hab, hmem⟩ := hbook.listed U b hb
    have hUnew : U ∈ new := by
      rw [hnew, List.mem_append, List.mem_cons] at hmem
      by_contra hno
      have hold : U ∈ (s.world.inj i).invocationList_ := by
        rw [hl, List.mem_append, List.mem_singleton]
        rcases hmem with hmem | hmem | hmem
        · exact Or.inl hmem
        · exact Or.inr hmem
        · exact absurd hmem hno
      exact hs.entry U hold hab hnone'
    simpa using hlater U b hUnew hb
  · intro U b hU hb
    have hmem := (hs.listed U b hb).2
    rw [hl, List.mem_append, List.mem_singleton] at hmem
    have hUnew : U ∉ new := by
      intro hmem'
      have hfree := hnone U hmem'
      rw [hb] at hfree
      cases hfree
    have hin := hearlier U b (hmem.resolve_right hU) hUnew hU (h.keep hd U _ hb)
    simp [hin]

theorem Adopting.destroy (h : Adopting ty i T a s t) {k : ℕ}
    (hs : Booked ty s.world i) (hown : Owns s.world i T a) {l : List Hash_t}
    (hl : (s.world.inj i).invocationList_ = l ++ [T]) (hk : k ∉ t.destroyed) :
    Adopting ty i T a s ⟨t.world.destroyInjector k, {k} ∪ t.destroyed⟩ := by
  obtain ⟨left, hf, hleft, hempty⟩ := destroyInjector_deletes t.world k
  have hkept := h.keepsBooks.destroy k
  have hordered : i = k → ∃ p q, (t.world.destroyInjector k).trace =
      t.world.trace ++ (p ++ .destroyed a :: q) ∧ .destroyed a ∉ p ∧ .destroyed a ∉ q := by
    rintro rfl
    obtain ⟨p, q, hpq, hp, hq, _⟩ := h.deletedInOrder hk hs hown hl
    exact ⟨p, q, hpq, hp, hq⟩
  have howner : ∀ j U, Owns (t.world.destroyInjector k) j U a → j ≠ k ∧ Owns t.world j U a := by
    intro j U ho
    have hj : j ≠ k := by
      rintro rfl
      have hno := hempty U
      rw [ho] at hno
      cases hno
    unfold Owns at ho
    rw [hf.others j hj] at ho
    exact ⟨hj, ho⟩
  generalize t.world.destroyInjector k = w' at *
  have hlive : i ∉ ({k} ∪ t.destroyed : Finset ℕ) → i ≠ k ∧ i ∉ t.destroyed := by
    intro hi
    simpa using hi
  -- if `k` is another injector, it does not own `a`
  have hnot : i ≠ k → Event.destroyed a ∉
      (erased t.world k ++ left).map Event.destroyed ++ [.destroyed (.injector k)] := by
    intro hik hmem
    have hno : ∀ U, ¬ Owns t.world k U a := fun U ho => hik (h.one k U ho).2.1.symm
    obtain ⟨n, _, rfl⟩ := h.allocated
    simp only [List.mem_append, List.mem_map, List.mem_singleton, Event.destroyed.injEq,
      reduceCtorEq, or_false, exists_eq_right] at hmem
    rcases hmem with hmem | hmem
    · obtain ⟨U, _, ho⟩ := TypeMap.mem_eraseAll.mp hmem
      exact hno U ho
    · obtain ⟨U, _, ho⟩ := hleft _ hmem
      exact hno U ho
  refine ⟨hkept.wf, hf.count ▸ h.lt, hkept.booked, ?_, ?_, ?_, ?_, ?_, ?_, ?_⟩
  · obtain ⟨n, hn, ha⟩ := h.allocated
    exact ⟨n, hf.fresh ▸ hn, ha⟩
  · intro hd
    unfold Owns
    rw [hf.others i (hlive hd).1]
    exact h.owns (hlive hd).2
  · intro j U ho
    obtain ⟨hjk, ho'⟩ := howner j U ho
    obtain ⟨hd, rfl, rfl⟩ := h.one j U ho'
    exact ⟨by simpa using ⟨hjk, hd⟩, rfl, rfl⟩
  · intro hd
    change .destroyed a ∉ w'.trace
    rw [hf.trace, List.mem_append]
    exact fun hm => hm.elim (h.left (hlive hd).2) (hnot (hlive hd).1)
  · intro hd
    change w'.trace.count (.destroyed a) = 1
    by_cases hik : i = k
    · obtain ⟨p, q, hpq, hp, hq⟩ := hordered hik
      have hlive' : i ∉ t.destroyed := hik ▸ hk
      rw [hpq, List.count_append, List.count_append, List.count_cons_self,
        List.count_eq_zero.mpr (h.left hlive'), List.count_eq_zero.mpr hp,
        List.count_eq_zero.mpr hq]
    · have hold : i ∈ t.destroyed := by simpa [hik] using hd
      rw [hf.trace, List.count_append, h.gone hold, List.count_eq_zero.mpr (hnot hik)]
  · intro hd
    change ∃ new, (w'.inj i).invocationList_ = _ ++ new ∧ _
    rw [hf.others i (hlive hd).1]
    exact h.list (hlive hd).2
  · intro hd U c hc
    change (w'.inj i).typeMap_.lookup U = some c
    rw [hf.others i (hlive hd).1]
    exact h.keep (hlive hd).2 U c hc

end

/-! ### The runs after that -/

section
variable {ty : Types} {s t t' : Session} {i : ℕ} {T : Hash_t} {a : Addr} {l : List Hash_t}

theorem Adopting.step {op : Op} (h : Adopting ty i T a s t) (hs : Booked ty s.world i)
    (hown : Owns s.world i T a) (hl : (s.world.inj i).invocationList_ = l ++ [T])
    (hoff : KeepsOff ty a t op) (hstep : sessionStep ty t op t') : Adopting ty i T a s t' := by
  obtain ⟨hi, hlive, _, rfl⟩ := hstep
  cases op with
  | call c =>
    rw [after_of_keeps rfl]
    exact h.call hi hoff
  | addRecipe k U body =>
    rw [after_of_keeps rfl]
    exact h.insertRecipe k U (.fn body)
  | bindImpl k Interface Implementation =>
    rw [after_of_keeps rfl]
    exact h.insertRecipe k Interface (.bind Implementation)
  | destroy k => exact h.destroy hs hown hl hlive

theorem Adopting.adopted (h : Adopting ty i T a s s) (hd : i ∉ s.destroyed)
    (hl : (s.world.inj i).invocationList_ = l ++ [T]) : Adopted ty i T a s := by
  have hs := h.booked i h.lt hd
  have hown := h.owns hd
  have hrun : ∀ t, RunUnder (sessionStep ty) (KeepsOff ty a) s t → Adopting ty i T a s t := by
    intro t ht
    refine ht.invariant (Adopting ty i T a s) h ?_
    intro t op t' hI hoff hstep
    exact hI.step hs hown hl hoff hstep
  refine ⟨fun t ht hlive => ?_, fun t ht hgone => (hrun t ht).gone hgone⟩
  have hI := hrun t ht
  have hfound : Located t.world i T (some a) := Or.inl ⟨⟨some a, true⟩, hI.owns hlive, rfl⟩
  exact ⟨⟨hI.owns hlive, hI.left hlive, located_call hI.wf hI.lt hfound⟩,
    hI.deletedInOrder hlive hs hown hl⟩

end

/-! ### The `get` that hands the object over -/

def handOver (w : World) (i : ℕ) (T : Hash_t) (a : Addr) (u : World) : World :=
  (leave i T .REFERENCE (w.inj i).isInCycleCheck_
    ((u.emit (.recipeEnd (w.trace.length + 1) (some a))).emplace_ptr i T (some a))).emit
    (.got i T (some a))

section
variable {ty : Types} {w u : World} {i o : ℕ} {T : Hash_t} {a : Addr} {recipe : Recipe}

theorem get_handOver (hw : w.WF) (hi : i < w.count) (hn : (w.inj i).typeMap_.lookup T = none)
    (hup : ∀ q, (w.inj i).pUpstream_ = some q → w.has_instance q T = false)
    (hfind : w.find_recipe_ T (i + 1) i = some (o, recipe))
    (hrun : recipeRun ty .get i T o recipe w = some (.ok (some a), u)) (fuel : ℕ) :
    wp (exec ty fuel ⟨.get, i, T⟩) (fun r w' => (r = .ok (some a) → ¬ OnStack w i T ∧
        ty.is_abstract T = false) ∧
      (¬ OnStack w i T → ty.is_abstract T = false → r = .ok (some a) ∧
        w' = handOver w i T a u)) w := by
  cases fuel with
  | zero => intro r w' h; cases h
  | succ fuel =>
    have ho : o ≤ i := (find_recipe_some hfind).1.le hw hi
    have hfree := recipeRun_absent hw hi hn ho hrun
    refine wp_get_made hn hup (wp_makeDependency ty _ (fun hf hT => ?_) fun hno => ?_)
    · exact ⟨by simp, fun hstack => absurd ⟨hf, hT⟩ hstack⟩
    have hstack : ¬ OnStack w i T := fun h => hno h.1 h.2
    refine wp_mono (inject_runs _ fuel hw hi) ?_
    intro res w₁ h
    simp only [hfind] at h
    obtain ⟨res', u', hrun', hrest⟩ := h
    cases hrun.symm.trans hrun'
    dsimp only at hrest
    rw [place] at hrest
    by_cases hab : ty.is_abstract T = true
    · -- the container is dropped, and nothing is found
      rw [if_pos hab] at hrest
      cases hrest
      refine wp_refOf (fun _ => ⟨by simp, fun _ hab' => by simp [hab] at hab'⟩) fun c hc => ?_
      rw [leave_typeMap, World.destroyAll_inj, World.emit_inj, hfree] at hc
      cases hc
    · rw [if_neg hab] at hrest
      cases hrest
      have hput := emplace_ptr_lookup_self
        (u.emit (.recipeEnd (w.trace.length + 1) (some a))) i T (some a)
      rw [World.emit_inj, hfree, Option.getD_none] at hput
      refine wp_refOf_some ((congrArg (AList.lookup T) (leave_typeMap ..)).trans hput) ?_
      exact ⟨fun _ => ⟨hstack, by simpa using hab⟩, fun _ _ => ⟨rfl, rfl⟩⟩

theorem handOver_trace (hfree : (u.inj i).typeMap_.lookup T = none) :
    (handOver w i T a u).trace = u.trace ++ [.recipeEnd (w.trace.length + 1) (some a),
      .managed i T a, .got i T (some a)] := by
  have hno : (u.emit (.recipeEnd (w.trace.length + 1) (some a))).has_instance i T = false :=
    no_instance_iff.mpr hfree
  have hput := TypeMap.emplace_ptr_of_not_has hno (some a)
  rw [handOver, World.emit_trace, leave_trace, World.emplace_ptr]
  simp only [hno, Bool.false_eq_true, if_false, World.emit_trace, World.onTypeMap_trace, hput]
  simp

theorem handOver_owns (hfree : (u.inj i).typeMap_.lookup T = none) (hun : Unowned u a) (j : ℕ)
    (U : Hash_t) : Owns (handOver w i T a u) j U a ↔ j = i ∧ U = T := by
  have hput := Placed.emplace_ptr i T (some a)
    (u.emit (.recipeEnd (w.trace.length + 1) (some a)))
  have hnew := emplace_ptr_lookup_self
    (u.emit (.recipeEnd (w.trace.length + 1) (some a))) i T (some a)
  unfold Owns handOver
  rw [World.emit_inj, leave_typeMap]
  constructor
  · intro h
    by_contra hne
    have hne' : j ≠ i ∨ U ≠ T := by
      by_contra hno
      push Not at hno
      exact hne hno
    rw [hput.lookup_ne hne'] at h
    exact hun.free j U h
  · rintro ⟨rfl, rfl⟩
    rw [hnew, World.emit_inj, hfree, Option.getD_none]

theorem handOver_list : ((handOver w i T a u).inj i).invocationList_ =
    (u.inj i).invocationList_ ++ [T] := by
  have hput := Placed.emplace_ptr i T (some a)
    (u.emit (.recipeEnd (w.trace.length + 1) (some a)))
  rw [handOver, World.emit_inj, leave_inj_self]
  simp [(hput.stays i).2.1]

end

theorem adopting_handOver {t : Session} (hkept : KeepsBooks ty t) (hcount : i < t.world.count)
    (hlive : i ∉ t.destroyed) (hfree : (u.inj i).typeMap_.lookup T = none) (hun : Unowned u a)
    (htw : t.world = handOver w i T a u) : Adopting ty i T a t t where
  wf := hkept.wf
  lt := hcount
  booked := hkept.booked
  allocated := by
    obtain ⟨n, hlt, rfl⟩ := hun.allocated
    have hput := Placed.emplace_ptr i T (some (.obj n))
      (u.emit (.recipeEnd (w.trace.length + 1) (some (.obj n))))
    refine ⟨n, Nat.lt_of_lt_of_le hlt ?_, rfl⟩
    rw [htw, handOver, World.emit_fresh, leave_fresh]
    exact hput.fresh
  owns _ := by
    rw [htw]
    exact (handOver_owns hfree hun i T).mpr ⟨rfl, rfl⟩
  one j U hown := by
    rw [htw] at hown
    exact ⟨hlive, (handOver_owns hfree hun j U).mp hown⟩
  left _ := by
    rw [htw, handOver_trace hfree]
    simpa using hun.left
  gone hgone := absurd hgone hlive
  list _ := ⟨[], by simp, by simp⟩
  keep _ _ _ hc := hc

/-- A `get` of a type without instance whose recipe returns an object that is nobody's hands
out that object, and the injector keeps it until its end, exactly if the type is concrete and
not on the path of the injector. -/
theorem recipe_adopted_iff {ty : Types} {s s' : Session} {i o : ℕ} {T : Hash_t}
    {body : ℕ → Prog} {a : Addr} {u : World} (h : Run (sessionStep ty) Session.start s)
    (hs : sessionStep ty s (.call ⟨.get, i, T⟩) s')
    (hn : (s.world.inj i).typeMap_.lookup T = none)
    (hup : ∀ q, (s.world.inj i).pUpstream_ = some q → s.world.has_instance q T = false)
    (hfind : s.world.find_recipe_ T (i + 1) i = some (o, .fn body))
    (hrun : recipeRun ty .get i T o (.fn body) s.world = some (.ok (some a), u))
    (hun : Unowned u a) :
    ((s.world.call ty ⟨.get, i, T⟩).1 = .ok (some a) ∧ Adopted ty i T a s') ↔
      ty.is_abstract T = false ∧ ¬ OnStack s.world i T := by
  have hkept := session_kept (.next h trivial hs)
  have hw : s.world.WF := (session_kept h).wf
  obtain ⟨hi, hlive, _, rfl⟩ := hs
  have ho : o ≤ i := (find_recipe_some hfind).1.le hw hi
  have hfree : (u.inj i).typeMap_.lookup T = none := recipeRun_absent hw hi hn ho hrun
  obtain ⟨honly, hgives⟩ := call_of_wp (c := ⟨.get, i, T⟩)
    (Q := fun r w' => (r = .ok (some a) → ¬ OnStack s.world i T ∧ ty.is_abstract T = false) ∧
      (¬ OnStack s.world i T → ty.is_abstract T = false → r = .ok (some a) ∧
        w' = handOver s.world i T a u)) hw hi (get_handOver hw hi hn hup hfind hrun)
  constructor
  · rintro ⟨hgot, _⟩
    obtain ⟨hstack, hab⟩ := honly hgot
    exact ⟨hab, hstack⟩
  · rintro ⟨hab, hstack⟩
    obtain ⟨hgot, hworld⟩ := hgives hstack hab
    refine ⟨hgot, ?_⟩
    generalize ht : s.after ty (.call ⟨.get, i, T⟩) = t at hkept
    have htw : t.world = handOver s.world i T a u := by
      rw [← ht]
      exact hworld
    have htd : t.destroyed = s.destroyed := by
      rw [← ht]
      exact Finset.empty_union _
    have hlive' : i ∉ t.destroyed := htd ▸ hlive
    have hlist : (t.world.inj i).invocationList_ = (u.inj i).invocationList_ ++ [T] := by
      rw [htw]
      exact handOver_list
    have hcount : i < t.world.count := by
      rw [← ht]
      have hgrows : Ext i s.world (s.world.call ty ⟨.get, i, T⟩).2 :=
        call_ext (c := ⟨.get, i, T⟩) hw hi
      exact Nat.lt_of_lt_of_le hi hgrows.count
    exact (adopting_handOver hkept hcount hlive' hfree hun htw).adopted hlive' hlist

/-- A recipe for the type 1 that makes an object, added to the root. -/
def supplied (ty : Types) : Session := Session.start.after ty (.addRecipe 0 1 fun _ => .new)

def suppliedRun (ty : Types) : World :=
  ((enter 0 1 ((supplied ty).world.emit (.asked .get 0 1))).emit (.recipe 1 0 0)).alloc

theorem supplied_run (ty : Types) : Run (sessionStep ty) Session.start (supplied ty) :=
  .next .start trivial (sessionStep_fresh ty rfl (by decide))

theorem supplied_unowned (ty : Types) : Unowned (suppliedRun ty) (.obj 0) := by
  refine ⟨⟨0, by simp [suppliedRun], rfl⟩, ?_, ?_⟩
  · have htr : (suppliedRun ty).trace = [.asked .get 0 1, .recipe 1 0 0] := rfl
    rw [htr]
    decide
  · intro j U ho
    have hmap : ((suppliedRun ty).inj j).typeMap_ = (World.root.inj j).typeMap_ := by
      have hsame : ((suppliedRun ty).inj j).typeMap_ = ((supplied ty).world.inj j).typeMap_ :=
        enter_typeMap 0 j 1 _
      exact hsame.trans (insertRecipe_typeMap World.root 0 j 1 _)
    unfold Owns at ho
    rw [hmap] at ho
    obtain ⟨_, hc⟩ := Injector.construct_entry ho
    cases hc

theorem supplied_adopts :
    ((supplied plainTypes).world.call plainTypes ⟨.get, 0, 1⟩).1 = .ok (some (.obj 0)) ∧
    Adopted plainTypes 0 1 (.obj 0)
      ((supplied plainTypes).after plainTypes (.call ⟨.get, 0, 1⟩)) := by
  have hstep : sessionStep plainTypes (supplied plainTypes) (.call ⟨.get, 0, 1⟩)
      ((supplied plainTypes).after plainTypes (.call ⟨.get, 0, 1⟩)) :=
    sessionStep_fresh plainTypes rfl (by decide)
  have hroot : ((supplied plainTypes).world.inj 0).pUpstream_ = none := rfl
  refine (recipe_adopted_iff (supplied_run plainTypes) hstep rfl ?_ (o := 0) rfl rfl
    (supplied_unowned plainTypes)).mpr ⟨rfl, fun hstack => ?_⟩
  · intro q hq
    rw [hroot] at hq
    cases hq
  · cases hstack.1

/-- For an abstract type the object is deleted, and nothing is returned. -/
theorem supplied_lost :
    let w := (supplied interfaceTypes).world.call interfaceTypes ⟨.get, 0, 1⟩
    w.1 = .error .outOfRange ∧ .destroyed (.obj 0) ∈ w.2.trace ∧
    ¬ ∀ (ty : Types) (s s' : Session) (i o : ℕ) (T : Hash_t) (body : ℕ → Prog) (a : Addr)
      (u : World), Run (sessionStep ty) Session.start s →
      sessionStep ty s (.call ⟨.get, i, T⟩) s' → (s.world.inj i).typeMap_.lookup T = none →
      (∀ q, (s.world.inj i).pUpstream_ = some q → s.world.has_instance q T = false) →
      s.world.find_recipe_ T (i + 1) i = some (o, .fn body) →
      recipeRun ty .get i T o (.fn body) s.world = some (.ok (some a), u) → Unowned u a →
      (s.world.call ty ⟨.get, i, T⟩).1 = .ok (some a) ∧ Adopted ty i T a s' := by
  have hthrown : ((supplied interfaceTypes).world.call interfaceTypes ⟨.get, 0, 1⟩).1 =
      .error .outOfRange := by decide
  refine ⟨hthrown, by decide, fun h => ?_⟩
  have hstep : sessionStep interfaceTypes (supplied interfaceTypes) (.call ⟨.get, 0, 1⟩)
      ((supplied interfaceTypes).after interfaceTypes (.call ⟨.get, 0, 1⟩)) :=
    sessionStep_fresh interfaceTypes rfl (by decide)
  have hroot : ((supplied interfaceTypes).world.inj 0).pUpstream_ = none := rfl
  have hgot := (h interfaceTypes _ _ 0 0 1 _ (.obj 0) (suppliedRun interfaceTypes)
    (supplied_run interfaceTypes) hstep rfl
    (fun q hq => by rw [hroot] at hq; cases hq) rfl rfl (supplied_unowned interfaceTypes)).1
  rw [hthrown] at hgot
  cases hgot

end Omulator.Di
