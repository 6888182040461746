import Omulator.Threads.Properties

/-!
# What the threads of a PropertyMap agree on

The memory shows what an abstract session does, but for entries that a thread is making and
strings that it is writing. A value is read or written at a moment of the access.
-/

namespace Omulator.Properties
open Omulator.Lib Omulator.Lib.Object Omulator.Props

variable (C : Compiler) (memory : String → UInt64)

/-! ### What the threads agree on -/

def Holds (m : PropertyMap) (key : String) (T : PropType) (v : T.Val) : Prop :=
  ∃ e, m.map_.lookup key = some e ∧ e.Reads C T v

def Typed (m : PropertyMap) (key : String) (T : PropType) : Prop := ∃ v, Holds C m key T v

/-- The session behind the memory. Only the owner of `mtx_` makes entries, and a string is any
while its flag is set. -/
structure Inv (c : Memory × Session) : Prop where
  sound : Sound C c.2
  refs : ∀ r ∈ c.1.refs, r ∈ c.2.refs
  holds : ∀ k T v, Holds C c.2.map k T v → (T = .string → c.1.lock_ k = none) →
    Holds C c.1.map k T v
  typed : ∀ k T, Typed C c.2.map k T → Typed C c.1.map k T
  absent : c.1.mtx_ = none → ∀ k, c.2.map.map_.lookup k = none → c.1.map.map_.lookup k = none

/-- What a step of another thread than `t` leaves alone in the memory, ... -/
structure KeepsMemory (t : ℕ) (w : Memory) (s : Session) (w' : Memory) : Prop where
  mtx_ : w'.mtx_ = some t ↔ w.mtx_ = some t
  lock_ : ∀ k, w'.lock_ k = some t ↔ w.lock_ k = some t
  absent : w.mtx_ = some t → ∀ k, w.map.map_.lookup k = none → w'.map.map_.lookup k = none
  fresh : w.mtx_ = some t → ∀ k T, s.map.map_.lookup k = none → Typed C w.map k T →
    Typed C w'.map k T
  text : ∀ k, w.lock_ k = some t → ∀ v, Holds C w.map k .string v → Holds C w'.map k .string v

/-- ... and in the session. -/
structure KeepsSession (t : ℕ) (w : Memory) (s s' : Session) : Prop where
  absent : w.mtx_ = some t → ∀ k, s.map.map_.lookup k = none → s'.map.map_.lookup k = none
  typed : ∀ k T, Typed C s.map k T → Typed C s'.map k T
  text : ∀ k, w.lock_ k = some t → ∀ v, Holds C s.map k .string v → Holds C s'.map k .string v
  refs : ∀ r ∈ s.refs, r ∈ s'.refs

def Guar (u : ℕ) (c c' : Memory × Session) : Prop :=
  ∀ t, t ≠ u → KeepsMemory C t c.1 c.2 c'.1 ∧ KeepsSession C t c.1 c.2 c'.2

section
variable {C} {m : PropertyMap} {key k : String} {T U : PropType} {v : T.Val} {e : MapEntry}

theorem Holds.put (h : e.Reads C T v) : Holds C (m.put key e) key T v := ⟨e, m.lookup_put _ _, h⟩

theorem holds_put_ne (hk : k ≠ key) : Holds C (m.put key e) k T v ↔ Holds C m k T v := by
  rw [Holds, Holds, m.lookup_put_ne _ hk]

theorem Holds.type_eq {u : U.Val} (h : Holds C m key T v) (hu : Holds C m key U u) : T = U := by
  obtain ⟨e, he, hr⟩ := h
  obtain ⟨e', he', hr'⟩ := hu
  rw [he] at he'
  cases he'
  exact hr.unique hr'.1

theorem Holds.val_eq {v' : T.Val} (h : Holds C m key T v) (h' : Holds C m key T v') : v = v' := by
  obtain ⟨e, he, hr⟩ := h
  obtain ⟨e', he', hr'⟩ := h'
  rw [he] at he'
  cases he'
  exact Option.some.inj (hr.2.symm.trans hr'.2)

theorem Typed.ne_none (h : Typed C m key T) : m.map_.lookup key ≠ none := by
  obtain ⟨v, e, he, -⟩ := h
  simp [he]

theorem Typed.put_of (hr : e.Reads C T v) (hT : Typed C m key T ∨ m.map_.lookup key = none)
    (h : Typed C m k U) : Typed C (m.put key e) k U := by
  by_cases hk : k = key
  · subst hk
    rcases hT with hT | hT
    · obtain ⟨u, hu⟩ := h
      obtain ⟨v', hv'⟩ := hT
      have hTU := hu.type_eq hv'
      subst hTU
      exact ⟨v, .put hr⟩
    · exact absurd hT h.ne_none
  · obtain ⟨u, hu⟩ := h
    exact ⟨u, (holds_put_ne hk).mpr hu⟩

end

/-! ### What a step changes -/

section
variable {C} {memory} {t : ℕ} {w w' : Memory} {s s' : Session} {key : String} {T : PropType}
  {v : T.Val} {e : MapEntry}

theorem keepsMemory_same (hm : w'.map = w.map)
    (hmtx : ∀ u, u ≠ t → (w'.mtx_ = some u ↔ w.mtx_ = some u))
    (hlock : ∀ u k, u ≠ t → (w'.lock_ k = some u ↔ w.lock_ k = some u)) :
    ∀ u, u ≠ t → KeepsMemory C u w s w' :=
  fun u hu => ⟨hmtx u hu, fun k => hlock u k hu, fun _ _ hk => hm ▸ hk,
    fun _ _ _ _ hk => hm ▸ hk, fun _ _ _ hv => hm ▸ hv⟩

theorem keepsSession_same (hm : s'.map = s.map) (hr : ∀ r ∈ s.refs, r ∈ s'.refs) (u : ℕ) :
    KeepsSession C u w s s' :=
  ⟨fun _ _ hk => hm ▸ hk, fun _ _ hk => hm ▸ hk, fun _ _ _ hv => hm ▸ hv, hr⟩

/-- The entry of the key is made by the owner of `mtx_`, or gets another value, a string from the
thread that has set the flag. -/
def MayPut (C : Compiler) (t : ℕ) (w : Memory) (m : PropertyMap) (key : String)
    (T : PropType) : Prop :=
  Typed C m key T ∧ (T = .string → w.lock_ key = some t) ∨
    m.map_.lookup key = none ∧ w.mtx_ = some t

theorem MayPut.ne_absent {m : PropertyMap} {u : ℕ} {k : String} (h : MayPut C t w m key T)
    (hu : u ≠ t) (hm : w.mtx_ = some u) (hk : m.map_.lookup k = none) : k ≠ key := by
  rintro rfl
  rcases h with ⟨hT, -⟩ | ⟨-, hm'⟩
  · exact hT.ne_none hk
  · exact hu (Option.some.inj (hm.symm.trans hm'))

theorem MayPut.ne_text {m : PropertyMap} {u : ℕ} {k : String} {x : PropType.string.Val}
    (h : MayPut C t w m key T) (hu : u ≠ t) (hk : w.lock_ k = some u)
    (hx : Holds C m k .string x) : k ≠ key := by
  rintro rfl
  rcases h with ⟨⟨v, hv⟩, hl⟩ | ⟨hn, -⟩
  · obtain rfl := hx.type_eq hv
    exact hu (Option.some.inj (hk.symm.trans (hl rfl)))
  · exact Typed.ne_none ⟨x, hx⟩ hn

theorem keepsMemory_put (hr : e.Reads C T v) (hT : MayPut C t w w.map key T) :
    ∀ u, u ≠ t → KeepsMemory C u w s (w.put key e) := by
  intro u hu
  refine ⟨.rfl, fun _ => .rfl, fun hm k hk => ?_, fun _ k U _ hk => ?_, fun k hk x hx => ?_⟩
  · exact (w.map.lookup_put_ne _ (hT.ne_absent hu hm hk)).trans hk
  · exact hk.put_of hr (hT.imp And.left And.left)
  · exact (holds_put_ne (hT.ne_text hu hk hx)).mpr hx

theorem keepsSession_put (hm : s'.map = s.map.put key e) (hrefs : ∀ r ∈ s.refs, r ∈ s'.refs)
    (hr : e.Reads C T v) (hT : MayPut C t w s.map key T) :
    ∀ u, u ≠ t → KeepsSession C u w s s' := by
  intro u hu
  refine ⟨fun hmtx k hk => ?_, fun k U hk => ?_, fun k hk x hx => ?_, hrefs⟩
  · rw [hm, s.map.lookup_put_ne _ (hT.ne_absent hu hmtx hk), hk]
  · rw [hm]
    exact hk.put_of hr (hT.imp And.left And.left)
  · rw [hm]
    exact (holds_put_ne (hT.ne_text hu hk hx)).mpr hx

end

/-! ### The invariant -/

section
variable {C} {t : ℕ} {w : Memory} {s s' : Session} {key : String} {T : PropType} {v : T.Val}
  {e e' : MapEntry}

namespace Inv

theorem lock (h : Inv C (w, s)) : Inv C ({ w with mtx_ := some t }, s) :=
  ⟨h.sound, h.refs, h.holds, h.typed, fun hn => by cases hn⟩

theorem unlock {ref : Option (PropType × String)} (h : Inv C (w, s))
    (hn : ∀ k, s.map.map_.lookup k = none → w.map.map_.lookup k = none)
    (hr : ∀ r ∈ ref, r ∈ s.refs) :
    Inv C ({ w with mtx_ := none, refs := ref.toList ++ w.refs }, s) := by
  refine ⟨h.sound, fun r hmem => ?_, h.holds, h.typed, fun _ => hn⟩
  rcases List.mem_append.mp hmem with hmem | hmem
  · exact hr r (Option.mem_toList.mp hmem)
  · exact h.refs r hmem

theorem look (h : Inv C (w, s)) (hs : Sound C s') (hm : s'.map = s.map)
    (hr : ∀ r ∈ s.refs, r ∈ s'.refs) : Inv C (w, s') :=
  ⟨hs, fun r hmem => hr r (h.refs r hmem), fun k T v hk => h.holds k T v (hm ▸ hk),
    fun k T hk => h.typed k T (hm ▸ hk), fun hmtx k hk => h.absent hmtx k (hm ▸ hk)⟩

theorem put (h : Inv C (w, s)) (hs : Sound C s') (hm : s'.map = s.map.put key e')
    (hr : ∀ r ∈ s.refs, r ∈ s'.refs) (he : e.Reads C T v) (he' : e'.Reads C T v) :
    Inv C (w.put key e, s') := by
  have hkey : ∀ {U : PropType} {u : U.Val}, Holds C s'.map key U u →
      Holds C (w.put key e).map key U u := by
    intro U u hu
    rw [hm] at hu
    obtain rfl := hu.type_eq (.put he')
    rw [hu.val_eq (.put he')]
    exact .put he
  have hne : ∀ {k : String}, k ≠ key → s'.map.map_.lookup k = s.map.map_.lookup k := by
    intro k hk
    rw [hm, s.map.lookup_put_ne _ hk]
  have hother : ∀ {k : String} {U : PropType} {u : U.Val}, k ≠ key → Holds C s'.map k U u →
      Holds C s.map k U u := by
    intro k U u hk hu
    rw [hm] at hu
    exact (holds_put_ne hk).mp hu
  refine ⟨hs, fun r hmem => hr r (h.refs r hmem), fun k U u hu hl => ?_, fun k U hU => ?_,
    fun hmtx k hk => ?_⟩
  · by_cases hk : k = key
    · subst hk
      exact hkey hu
    · exact (holds_put_ne hk).mpr (h.holds k U u (hother hk hu) hl)
  · obtain ⟨u, hu⟩ := hU
    by_cases hk : k = key
    · subst hk
      exact ⟨u, hkey hu⟩
    · obtain ⟨x, hx⟩ := h.typed k U ⟨u, hother hk hu⟩
      exact ⟨x, (holds_put_ne hk).mpr hx⟩
  · have hk' : k ≠ key := by
      rintro rfl
      rw [hm, s.map.lookup_put] at hk
      cases hk
    exact (w.map.lookup_put_ne _ hk').trans (h.absent hmtx k ((hne hk').symm.trans hk))

theorem write (h : Inv C (w, s)) (he : e.Reads C T v)
    (hT : s.map.map_.lookup key = none ∧ w.mtx_ = some t ∨
      T = .string ∧ Typed C s.map key .string ∧ w.lock_ key = some t) :
    Inv C (w.put key e, s) := by
  refine ⟨h.sound, h.refs, fun k U u hu hl => ?_, fun k U hU => ?_, fun hmtx k hk => ?_⟩
  · have hk : k ≠ key := by
      rintro rfl
      rcases hT with ⟨hn, -⟩ | ⟨-, ⟨x, hx⟩, hlock⟩
      · exact Typed.ne_none ⟨u, hu⟩ hn
      · have hnone : w.lock_ k = none := hl (hu.type_eq hx)
        rw [hnone] at hlock
        cases hlock
    exact (holds_put_ne hk).mpr (h.holds k U u hu hl)
  · by_cases hk : k = key
    · subst hk
      rcases hT with ⟨hn, -⟩ | ⟨rfl, ⟨x, hx⟩, -⟩
      · exact absurd hn hU.ne_none
      · obtain ⟨u, hu⟩ := hU
        obtain rfl := hu.type_eq hx
        exact ⟨v, .put he⟩
    · obtain ⟨x, hx⟩ := h.typed k U hU
      exact ⟨x, (holds_put_ne hk).mpr hx⟩
  · have hk' : k ≠ key := by
      rintro rfl
      rcases hT with ⟨-, hm⟩ | ⟨-, hx, -⟩
      · have hm' : w.mtx_ = none := hmtx
        rw [hm'] at hm
        cases hm
      · exact hx.ne_none hk
    exact (w.map.lookup_put_ne _ hk').trans (h.absent hmtx k hk)

theorem test_and_set (h : Inv C (w, s)) :
    Inv C ({ w with lock_ := Function.update w.lock_ key (some t) }, s) := by
  refine ⟨h.sound, h.refs, fun k U u hu hl => h.holds k U u hu fun hU => ?_, h.typed, h.absent⟩
  have hl' := hl hU
  by_cases hk : k = key
  · subst hk
    simp at hl'
  · simpa [Function.update_of_ne hk] using hl'

theorem clear {x : PropType.string.Val} (h : Inv C (w, s)) (hs : Sound C s')
    (hr : ∀ r ∈ s.refs, r ∈ s'.refs)
    (hne : ∀ k, k ≠ key → s'.map.map_.lookup k = s.map.map_.lookup k)
    (hx' : Holds C s'.map key .string x) (hx : Holds C w.map key .string x) :
    Inv C ({ w with lock_ := Function.update w.lock_ key none }, s') := by
  have hother : ∀ {k : String} {U : PropType} {u : U.Val}, k ≠ key → Holds C s'.map k U u →
      Holds C s.map k U u := by
    intro k U u hk hu
    rwa [Holds, hne k hk] at hu
  refine ⟨hs, fun r hmem => hr r (h.refs r hmem), fun k U u hu hl => ?_, fun k U hU => ?_,
    fun hmtx k hk => ?_⟩
  · by_cases hk : k = key
    · subst hk
      obtain rfl := hu.type_eq hx'
      rw [hu.val_eq hx']
      exact hx
    · refine h.holds k U u (hother hk hu) fun hU => ?_
      simpa [Function.update_of_ne hk] using hl hU
  · obtain ⟨u, hu⟩ := hU
    by_cases hk : k = key
    · subst hk
      obtain rfl := hu.type_eq hx'
      exact ⟨x, hx⟩
    · exact h.typed k U ⟨u, hother hk hu⟩
  · have hk' : k ≠ key := by
      rintro rfl
      exact Typed.ne_none ⟨x, hx'⟩ hk
    exact h.absent hmtx k ((hne k hk').symm.trans hk)

end Inv

end

/-! ### What a thread may assume -/

abbrev Steady (t : ℕ) (P : Memory × Session → Prop) : Prop := Stable (Inv C) (Guar C) t P

abbrev Right {α : Type} (t : ℕ) (op : Op) (Q : α → Option Out → Memory × Session → Prop)
    (p : Proc α) (d : Option Out) (c : Memory × Session) : Prop :=
  (object C memory).Ok (Session.Performs C memory) (Inv C) (Guar C) t op Q p d c

/-- The references that the call uses have been given out, and the thread has set the flag of `f`
alone. -/
def Stands (t : ℕ) (op : Op) (f : Option String) (c : Memory × Session) : Prop :=
  (∀ r ∈ op.uses, r ∈ c.2.refs) ∧ ∀ k, c.1.lock_ k = some t ↔ f = some k

/-- The thread has locked `mtx_`, and there are no entries but those of the session and that of
`x`. -/
def Owns (t : ℕ) (x : Option String) (c : Memory × Session) : Prop :=
  c.1.mtx_ = some t ∧
    ∀ k, x ≠ some k → c.2.map.map_.lookup k = none → c.1.map.map_.lookup k = none

def Mutex (t : ℕ) (m : Bool) (x : Option String) (c : Memory × Session) : Prop :=
  if m then Owns t x c else c.1.mtx_ ≠ some t

section
variable {C} {t : ℕ} {op : Op} {f x : Option String} {m : Bool} {key : String} {T : PropType}

theorem steady_stands : Steady C t (Stands t op f) := by
  intro c c' u hu _ h hg _
  obtain ⟨hm, hs⟩ := hg t (Ne.symm hu)
  exact ⟨fun r hr => hs.refs r (h.1 r hr), fun k => (hm.lock_ k).trans (h.2 k)⟩

theorem lookup_none_of_keeps {w : Memory} {s s' : Session} {k : String} (hs : Sound C s)
    (h : KeepsSession C t w s s') (hk : s'.map.map_.lookup k = none) :
    s.map.map_.lookup k = none := by
  by_contra hn
  obtain ⟨e, he⟩ := Option.ne_none_iff_exists'.mp hn
  obtain ⟨T, v, hr⟩ := hs.reads k e he
  exact (h.typed k T ⟨v, e, he, hr⟩).ne_none hk

theorem steady_owns : Steady C t (Owns t x) := by
  intro c c' u hu hi h hg _
  obtain ⟨hm, hs⟩ := hg t (Ne.symm hu)
  exact ⟨hm.mtx_.mpr h.1, fun k hx hk =>
    hm.absent h.1 k (h.2 k hx (lookup_none_of_keeps hi.sound hs hk))⟩

theorem steady_mutex : Steady C t (Mutex t m x) := by
  intro c c' u hu hi h hg hi'
  cases m with
  | true => exact steady_owns c c' u hu hi h hg hi'
  | false => exact fun hm => h ((hg t (Ne.symm hu)).1.mtx_.mp hm)

theorem steady_typed : Steady C t fun c => Typed C c.2.map key T :=
  fun _ _ _ hu _ h hg _ => (hg t (Ne.symm hu)).2.typed key T h

theorem steady_made : Steady C t fun c => c.1.mtx_ = some t ∧
    c.2.map.map_.lookup key = none ∧ Typed C c.1.map key T := by
  intro c c' u hu _ h hg _
  obtain ⟨hm, hs⟩ := hg t (Ne.symm hu)
  exact ⟨hm.mtx_.mpr h.1, hs.absent h.1 key h.2.1, hm.fresh h.1 key T h.2.1 h.2.2⟩

theorem steady_text {v : PropType.string.Val} : Steady C t fun c =>
    c.1.lock_ key = some t ∧ Holds C c.1.map key .string v := by
  intro c c' u hu _ h hg _
  obtain ⟨hm, -⟩ := hg t (Ne.symm hu)
  exact ⟨(hm.lock_ key).mpr h.1, hm.text key h.1 v h.2⟩

theorem steady_shown {v : PropType.string.Val} : Steady C t fun c =>
    c.1.lock_ key = some t ∧ Holds C c.2.map key .string v := by
  intro c c' u hu _ h hg _
  obtain ⟨hm, hs⟩ := hg t (Ne.symm hu)
  exact ⟨(hm.lock_ key).mpr h.1, hs.text key h.1 v h.2⟩

theorem guar_refl (c : Memory × Session) : Guar C t c c := fun u hu =>
  ⟨keepsMemory_same rfl (fun _ _ => .rfl) (fun _ _ _ => .rfl) u hu,
    keepsSession_same rfl (fun _ => id) u⟩

theorem guar_look {w : Memory} {s s' : Session} (hm : s'.map = s.map)
    (hr : ∀ r ∈ s.refs, r ∈ s'.refs) : Guar C t (w, s) (w, s') :=
  fun u hu => ⟨(guar_refl (w, s) u hu).1, keepsSession_same hm hr u⟩

theorem Owns.put {w w' : Memory} {s s' : Session} {e : MapEntry} (h : Owns t (some key) (w, s))
    (hm : w'.mtx_ = w.mtx_)
    (hw : ∀ k, k ≠ key → w'.map.map_.lookup k = w.map.map_.lookup k)
    (hs : s'.map = s.map.put key e) : Owns t none (w', s') := by
  refine ⟨hm.trans h.1, fun k _ hk => ?_⟩
  have hne : k ≠ key := by
    rintro rfl
    rw [hs, s.map.lookup_put] at hk
    cases hk
  rw [hs, s.map.lookup_put_ne _ hne] at hk
  exact (hw k hne).trans (h.2 k (fun hx => hne (Option.some.inj hx).symm) hk)

theorem guar_lock {w : Memory} {s : Session} (hm : w.mtx_ = none) :
    Guar C t (w, s) ({ w with mtx_ := some t }, s) := by
  have hmem : ∀ u, u ≠ t → KeepsMemory C u w s { w with mtx_ := some t } :=
    keepsMemory_same rfl (fun u hu => by simp [hm, Ne.symm hu]) fun _ _ _ => .rfl
  exact fun u hu => ⟨hmem u hu, keepsSession_same rfl (fun _ => id) u⟩

theorem guar_unlock {w : Memory} {s : Session} {refs : List (PropType × String)}
    (hm : w.mtx_ = some t) : Guar C t (w, s) ({ w with mtx_ := none, refs := refs }, s) := by
  have hmem : ∀ u, u ≠ t → KeepsMemory C u w s { w with mtx_ := none, refs := refs } :=
    keepsMemory_same rfl (fun u hu => by simp [hm, Ne.symm hu]) fun _ _ _ => .rfl
  exact fun u hu => ⟨hmem u hu, keepsSession_same rfl (fun _ => id) u⟩

theorem guar_set {w : Memory} {s : Session} (hl : w.lock_ key = none) :
    Guar C t (w, s) ({ w with lock_ := Function.update w.lock_ key (some t) }, s) := by
  have hm : ∀ u, u ≠ t →
      KeepsMemory C u w s { w with lock_ := Function.update w.lock_ key (some t) } := by
    refine keepsMemory_same rfl (fun _ _ => .rfl) fun u k hu => ?_
    by_cases hk : k = key
    · subst hk
      simp [hl, Ne.symm hu]
    · simp [Function.update_of_ne hk]
  exact fun u hu => ⟨hm u hu, keepsSession_same rfl (fun _ => id) u⟩

theorem Stands.set {w : Memory} {s : Session} (h : Stands t op none (w, s)) :
    Stands t op (some key) ({ w with lock_ := Function.update w.lock_ key (some t) }, s) := by
  refine ⟨h.1, fun k => ?_⟩
  by_cases hk : k = key
  · subst hk
    simp
  · have hl : w.lock_ k ≠ some t := by simpa using (h.2 k).not
    simp [Function.update_of_ne hk, hl, Ne.symm hk]

theorem keepsMemory_clear {w : Memory} {s : Session} (hl : w.lock_ key = some t) :
    ∀ u, u ≠ t → KeepsMemory C u w s { w with lock_ := Function.update w.lock_ key none } := by
  refine keepsMemory_same rfl (fun _ _ => .rfl) fun u k hu => ?_
  by_cases hk : k = key
  · subst hk
    simp [hl, Ne.symm hu]
  · simp [Function.update_of_ne hk]

theorem Stands.clear {w : Memory} {s s' : Session} (h : Stands t op (some key) (w, s))
    (hr : ∀ r ∈ s.refs, r ∈ s'.refs) :
    Stands t op none ({ w with lock_ := Function.update w.lock_ key none }, s') := by
  refine ⟨fun r hmem => hr r (h.1 r hmem), fun k => ?_⟩
  by_cases hk : k = key
  · subst hk
    simp
  · have hl : w.lock_ k ≠ some t := by simpa [Ne.symm hk] using (h.2 k).not
    simp [Function.update_of_ne hk, hl]

end

/-! ### Reading a value -/

section
variable {C memory} {t : ℕ} {op : Op} {key : String} {T : PropType} {m fresh : Bool}
  {c : Memory × Session} {d : Option Out}

def Readable (C : Compiler) (t : ℕ) (op : Op) (m : Bool) (key : String) (T : PropType)
    (c : Memory × Session) : Prop :=
  (Stands t op none c ∧ Mutex t m none c) ∧ Typed C c.2.map key T

theorem steady_readable : Steady C t (Readable C t op m key T) :=
  (steady_stands.and steady_mutex).and steady_typed

theorem right_load {out : T.Val → Out} {Q : T.Val → Option Out → Memory × Session → Prop}
    (hT : T ≠ .string)
    (hlp : ∀ s v, Sound C s → (∀ r ∈ op.uses, r ∈ s.refs) → Holds C s.map key T v →
      s.Performs C memory (op, out v) s)
    (hi : Inv C c) (h : Readable C t op m key T c)
    (hQ : ∀ v c, Inv C c → Stands t op none c → Mutex t m none c → Q v (some (out v)) c) :
    Right C memory t op Q (ask (.load T key)) none c := by
  refine ok_call _ steady_readable hi h fun c' hi' h' => ?_
  obtain ⟨⟨hu, hm⟩, v, hv⟩ := h'
  obtain ⟨e, he, hr⟩ := hi'.holds key T v hv fun hs => absurd hs hT
  refine ⟨by simp [object, fine, he, hr.2], fun x w hx => ?_⟩
  simp only [object, access, he, Option.bind_some, hr.2] at hx
  split at hx
  · rename_i hvx
    cases hx
    obtain rfl := Option.some.inj hvx
    exact ⟨some (out v), c'.2, .inr ⟨rfl, out v, rfl, hlp c'.2 v hi'.sound hu.1 hv⟩, hi',
      guar_refl c', hQ v c' hi' hu hm⟩
  · cases hx

theorem text_of_holds {w : Memory} {v : String} (h : Holds C w.map key .string v) :
    w.text key = some v.toList := by
  obtain ⟨e, he, hr⟩ := h
  rw [Memory.text, he, Option.bind_some, hr.2]
  rfl

def Reading (C : Compiler) (t : ℕ) (op : Op) (m : Bool) (key : String) (v : String)
    (c : Memory × Session) : Prop :=
  (Stands t op (some key) c ∧ Mutex t m none c) ∧
    (c.1.lock_ key = some t ∧ Holds C c.2.map key .string v) ∧
    (c.1.lock_ key = some t ∧ Holds C c.1.map key .string v)

theorem steady_reading {v : String} : Steady C t (Reading C t op m key v) :=
  (steady_stands.and steady_mutex).and (steady_shown.and steady_text)

theorem right_copyChars {v : String} {n i : ℕ}
    {Q : List Char → Option Out → Memory × Session → Prop} (hn : i + n = v.toList.length)
    (hi : Inv C c) (h : Reading C t op m key v c)
    (hQ : ∀ c, Inv C c → Reading C t op m key v c → Q (v.toList.drop i) d c) :
    Right C memory t op Q (PropertyValue.copyChars key i n) d c := by
  induction n generalizing i c Q with
  | zero =>
    have hd : v.toList.drop i = [] := List.drop_eq_nil_of_le (by omega)
    have hq := hQ c hi h
    rwa [hd] at hq
  | succ n ih =>
    have hlt : i < v.toList.length := by omega
    refine ok_look_bind _ steady_reading guar_refl hi h fun c' hi' h' => ?_
    have htext : c'.1.text key = some v.toList := text_of_holds h'.2.2.2
    refine ⟨⟨h'.2.2.1, v.toList, htext, hlt⟩, fun x w hx => ?_⟩
    simp only [object, access, htext, Option.bind_some] at hx
    split at hx
    · rename_i hxi
      cases hx
      have hn' : i + 1 + n = v.toList.length := by omega
      refine ⟨rfl, Ok.bind (ih hn' hi' h' fun c'' hi'' h'' => ?_)⟩
      have hd : v.toList.drop i = x :: v.toList.drop (i + 1) := by
        rw [List.drop_eq_getElem_cons hlt]
        rw [List.getElem?_eq_getElem hlt] at hxi
        rw [Option.some.inj hxi]
      have hq := hQ c'' hi'' h''
      rwa [hd] at hq
    · cases hx

theorem right_get_string {out : String → Out}
    {Q : String → Option Out → Memory × Session → Prop}
    (hlp : ∀ s v, Sound C s → (∀ r ∈ op.uses, r ∈ s.refs) → Holds C s.map key .string v →
      s.Performs C memory (op, out v) s)
    (hi : Inv C c) (h : Readable C t op m key .string c)
    (hQ : ∀ v c, Inv C c → Stands t op none c → Mutex t m none c → Q v (some (out v)) c) :
    Right C memory t op Q (PropertyValue.get key .string) none c := by
  -- the flag
  refine ok_call_bind _ steady_readable hi h fun c' hi' h' => ?_
  obtain ⟨⟨hu, hm⟩, hT⟩ := h'
  have ⟨(v : String), hv⟩ := hT
  obtain ⟨x, hx⟩ := hi'.typed key .string hT
  refine ⟨⟨by simpa using (hu.2 key).not, by rw [text_of_holds hx]; rfl⟩, fun _ w hw => ?_⟩
  simp only [object, access] at hw
  split at hw
  case isFalse => cases hw
  rename_i hl
  cases hw
  refine ⟨none, c'.2, .inl ⟨rfl, rfl⟩, hi'.test_and_set, guar_set hl, ?_⟩
  have hreading : Reading C t op m key v
      ({ c'.1 with lock_ := Function.update c'.1.lock_ key (some t) }, c'.2) :=
    ⟨⟨hu.set, hm⟩, ⟨by simp, hv⟩, ⟨by simp, hi'.holds key .string v hv fun _ => hl⟩⟩
  -- the characters
  refine ok_look_bind _ steady_reading guar_refl hi'.test_and_set hreading fun c hi h => ?_
  have htext : c.1.text key = some v.toList := text_of_holds h.2.2.2
  refine ⟨⟨h.2.2.1, by rw [htext]; rfl⟩, fun n w hw => ?_⟩
  simp only [object, access, htext, Option.map_some] at hw
  split at hw
  case isFalse => cases hw
  rename_i hn
  cases hw
  have hn' : 0 + n = v.toList.length := by
    rw [Nat.zero_add]
    exact (Option.some.inj hn).symm
  refine ⟨rfl, Ok.bind (right_copyChars hn' hi h fun c hi h => ?_)⟩
  -- the call is performed when the flag is cleared
  refine ok_call_bind _ steady_reading hi h fun c hi h => ?_
  obtain ⟨⟨hu, hm⟩, ⟨hl, hs⟩, -, hw⟩ := h
  refine ⟨⟨hl, by rw [text_of_holds hw]; rfl⟩, fun _ w hcl => ?_⟩
  cases hcl
  refine ⟨some (out v), c.2, .inr ⟨rfl, out v, rfl, hlp c.2 v hi.sound hu.1 hs⟩,
    hi.clear hi.sound (fun _ => id) (fun _ _ => rfl) hs hw,
    fun u hu => ⟨keepsMemory_clear hl u hu, keepsSession_same rfl (fun _ => id) u⟩, ?_⟩
  have hq := hQ v _ (hi.clear hi.sound (fun _ => id) (fun _ _ => rfl) hs hw)
    (hu.clear fun _ => id) hm
  rw [List.drop_zero, String.ofList_toList]
  exact hq

/-! ### Writing a value -/

/-- The key has an entry, which the thread has just made and the session does not know yet if it
is `fresh`. -/
def Entry (C : Compiler) (t : ℕ) (fresh : Bool) (key : String) (T : PropType)
    (c : Memory × Session) : Prop :=
  if fresh then c.1.mtx_ = some t ∧ c.2.map.map_.lookup key = none ∧ Typed C c.1.map key T
  else Typed C c.2.map key T

theorem steady_entry : Steady C t (Entry C t fresh key T) := by
  cases fresh with
  | true => exact steady_made
  | false => exact steady_typed

theorem Entry.typed (h : Entry C t fresh key T c) (hi : Inv C c) : Typed C c.1.map key T := by
  cases fresh with
  | true => exact h.2.2
  | false => exact hi.typed key T h

def Known (C : Compiler) (fresh : Bool) (m : PropertyMap) (key : String) (T : PropType) : Prop :=
  if fresh then m.map_.lookup key = none else Typed C m key T

theorem Entry.known (h : Entry C t fresh key T c) : Known C fresh c.2.map key T := by
  cases fresh with
  | true => exact h.2.1
  | false => exact h

theorem Entry.mayPut (h : Entry C t fresh key T c)
    (hl : T = .string → c.1.lock_ key = some t) : MayPut C t c.1 c.2.map key T := by
  cases fresh with
  | true => exact .inr ⟨h.2.1, h.1⟩
  | false => exact .inl ⟨h, hl⟩

def Writable (C : Compiler) (t : ℕ) (op : Op) (m fresh : Bool) (key : String) (T : PropType)
    (c : Memory × Session) : Prop :=
  (Stands t op none c ∧ Mutex t m (some key) c) ∧ Entry C t fresh key T c

theorem steady_writable : Steady C t (Writable C t op m fresh key T) :=
  (steady_stands.and steady_mutex).and steady_entry

theorem Mutex.put {w w' : Memory} {s s' : Session} {e : MapEntry}
    (h : Mutex t m (some key) (w, s)) (hm : w'.mtx_ = w.mtx_)
    (hw : ∀ k, k ≠ key → w'.map.map_.lookup k = w.map.map_.lookup k)
    (hs : s'.map = s.map.put key e) : Mutex t m none (w', s') := by
  cases m with
  | true => exact Owns.put h hm hw hs
  | false => exact fun hmtx => h (hm ▸ hmtx)

theorem setVal_of_holds {w : Memory} {v : T.Val} (h : Holds C w.map key T v) (x : T.Val) :
    ∃ e, w.setVal key ⟨T, x⟩ = some (w.put key e) ∧ e.Reads C T x := by
  obtain ⟨e, he, hr⟩ := h
  obtain ⟨st, hst, hl⟩ := Storage.store_of_load hr.2 x
  exact ⟨{ e with storage := st }, by simp [Memory.setVal, he, hst], hr.1, hl⟩

def Writes (C : Compiler) (memory : String → UInt64) (op : Op) (fresh : Bool) (key : String)
    (T : PropType) (newVal : T.Val) (out : Out) : Prop :=
  ∀ s, Sound C s → (∀ r ∈ op.uses, r ∈ s.refs) → Known C fresh s.map key T →
    ∃ s' e, s.Performs C memory (op, out) s' ∧ s'.map = s.map.put key e ∧ e.Reads C T newVal ∧
      s'.refs = s.refs

theorem right_store {newVal : T.Val} {out : Out} {Q : Unit → Option Out → Memory × Session → Prop}
    (hT : T ≠ .string) (hlp : Writes C memory op fresh key T newVal out) (hi : Inv C c)
    (h : Writable C t op m fresh key T c)
    (hQ : ∀ c, Inv C c → Stands t op none c → Mutex t m none c → Q () (some out) c) :
    Right C memory t op Q (ask (.store ⟨T, newVal⟩ key)) none c := by
  refine ok_call _ steady_writable hi h fun c' hi' h' => ?_
  obtain ⟨w, s⟩ := c'
  obtain ⟨⟨hu, hm⟩, hs⟩ := h'
  have hw : Typed C w.map key T := hs.typed hi'
  have ⟨_, hv⟩ := hw
  obtain ⟨e, he, hr⟩ := setVal_of_holds hv newVal
  refine ⟨by simp [object, fine, he], fun _ w' hw' => ?_⟩
  simp only [object, access, he, Option.some.injEq] at hw'
  subst hw'
  obtain ⟨s', e', hp, hmap, hr', hrefs⟩ := hlp s hi'.sound hu.1 hs.known
  have hsub : ∀ r ∈ s.refs, r ∈ s'.refs := fun r hr => hrefs ▸ hr
  have hi'' : Inv C (w.put key e, s') := hi'.put (hi'.sound.next hp).1 hmap hsub hr hr'
  refine ⟨some out, s', .inr ⟨rfl, out, rfl, hp⟩, hi'', fun u hne => ⟨?_, ?_⟩, ?_⟩
  · exact keepsMemory_put hr (.inl ⟨hw, fun h => absurd h hT⟩) u hne
  · exact keepsSession_put hmap hsub hr' (hs.mayPut fun h => absurd h hT) u hne
  · exact hQ _ hi'' ⟨fun r hr => hsub r (hu.1 r hr), hu.2⟩
      (hm.put rfl (fun k hk => w.map.lookup_put_ne _ hk) hmap)

def Writing (C : Compiler) (t : ℕ) (op : Op) (m fresh : Bool) (key : String) (g : String)
    (c : Memory × Session) : Prop :=
  ((Stands t op (some key) c ∧ Mutex t m (some key) c) ∧ Entry C t fresh key .string c) ∧
    (c.1.lock_ key = some t ∧ Holds C c.1.map key .string g)

theorem steady_writing {g : String} : Steady C t (Writing C t op m fresh key g) :=
  ((steady_stands.and steady_mutex).and steady_entry).and steady_text

theorem right_write {a : Access} {g g' : String} {p : Proc Unit}
    {Q : Unit → Option Out → Memory × Session → Prop} {x : a.Ans} {w : Memory}
    (hi : Inv C c) (h : Writing C t op m fresh key g c)
    (hx : access C memory t a x c.1 = c.1.setVal key ⟨.string, g'⟩)
    (hw : access C memory t a x c.1 = some w)
    (hk : Inv C (w, c.2) → Writing C t op m fresh key g' (w, c.2) →
      Right C memory t op Q p d (w, c.2)) :
    ∃ d' s, Takes (Session.Performs C memory) op d c.2 d' s ∧ Inv C (w, s) ∧
      Guar C t c (w, s) ∧ Right C memory t op Q p d' (w, s) := by
  obtain ⟨⟨⟨hu, hm⟩, hs⟩, hl, hg⟩ := h
  obtain ⟨e, he, hr⟩ := setVal_of_holds hg g'
  rw [hx, he, Option.some.injEq] at hw
  subst hw
  have hi' : Inv C (c.1.put key e, c.2) := by
    refine hi.write (t := t) hr ?_
    cases fresh with
    | true => exact .inl ⟨hs.2.1, hs.1⟩
    | false => exact .inr ⟨rfl, hs, hl⟩
  refine ⟨d, c.2, .inl ⟨rfl, rfl⟩, hi', fun u hne => ⟨?_, ?_⟩, hk hi' ⟨⟨⟨hu, ?_⟩, ?_⟩, hl, ?_⟩⟩
  · exact keepsMemory_put hr (.inl ⟨⟨g, hg⟩, fun _ => hl⟩) u hne
  · exact keepsSession_same rfl (fun _ => id) u
  · cases m with
    | true =>
      refine ⟨hm.1, fun k hk hn => ?_⟩
      have hne : k ≠ key := fun h => hk (congrArg some h.symm)
      exact (c.1.map.lookup_put_ne _ hne).trans (hm.2 k hk hn)
    | false => exact hm
  · cases fresh with
    | true => exact ⟨hs.1, hs.2.1, g', .put hr⟩
    | false => exact hs
  · exact .put hr

theorem right_putChars {cs : List Char} {i : ℕ} {g : String}
    {Q : Unit → Option Out → Memory × Session → Prop} (hn : g.toList.length = i + cs.length)
    (hi : Inv C c) (h : Writing C t op m fresh key g c)
    (hQ : ∀ c, Inv C c → Writing C t op m fresh key (String.ofList (g.toList.take i ++ cs)) c →
      Q () d c) :
    Right C memory t op Q (PropertyValue.putChars key i cs) d c := by
  induction cs generalizing i g c with
  | nil =>
    have hg : String.ofList (g.toList.take i ++ []) = g := by
      rw [List.append_nil, List.take_of_length_le (by simpa using hn.le), String.ofList_toList]
    rw [hg] at hQ
    exact hQ c hi h
  | cons x cs ih =>
    rw [List.length_cons] at hn
    refine ok_call_bind _ steady_writing hi h fun c' hi' h' => ?_
    have htext : c'.1.text key = some g.toList := text_of_holds h'.2.2
    refine ⟨⟨h'.2.1, g.toList, htext, by omega⟩, fun y w hw => ?_⟩
    have hx : access C memory t (.putChar key i x) y c'.1 =
        c'.1.setVal key ⟨.string, String.ofList (g.toList.set i x)⟩ := by simp [access, htext]
    refine right_write hi' h' hx hw fun hi'' h'' => ?_
    · refine ih ?_ hi'' h'' ?_
      · rw [String.toList_ofList, List.length_set]
        omega
      · have htake : (g.toList.set i x).take (i + 1) = g.toList.take i ++ [x] := by
          have hlen : (g.toList.take i).length = i := List.length_take_of_le (by omega)
          rw [List.set_eq_take_append_cons_drop, if_pos (by omega), List.take_append, hlen]
          simp
        rw [String.toList_ofList, htake, List.append_assoc]
        exact hQ

theorem right_set_string {newVal : String} {out : Out}
    {Q : Unit → Option Out → Memory × Session → Prop}
    (hlp : Writes C memory op fresh key .string newVal out) (hi : Inv C c)
    (h : Writable C t op m fresh key .string c)
    (hQ : ∀ c, Inv C c → Stands t op none c → Mutex t m none c → Q () (some out) c) :
    Right C memory t op Q (PropertyValue.set key .string newVal) none c := by
  -- the flag
  refine ok_call_bind _ steady_writable hi h fun c' hi' h' => ?_
  obtain ⟨⟨hu, hm⟩, hs⟩ := h'
  have ⟨g, hg⟩ : Typed C c'.1.map key .string := hs.typed hi'
  refine ⟨⟨by simpa using (hu.2 key).not, by rw [text_of_holds hg]; rfl⟩, fun _ w hw => ?_⟩
  simp only [object, access] at hw
  split at hw
  case isFalse => cases hw
  rename_i hl
  cases hw
  refine ⟨none, c'.2, .inl ⟨rfl, rfl⟩, hi'.test_and_set, guar_set hl, ?_⟩
  have hwriting : Writing C t op m fresh key g
      ({ c'.1 with lock_ := Function.update c'.1.lock_ key (some t) }, c'.2) :=
    ⟨⟨⟨hu.set, hm⟩, hs⟩, by simp, hg⟩
  -- the characters
  refine ok_call_bind _ steady_writing hi'.test_and_set hwriting fun c hi h => ?_
  refine ⟨⟨h.2.1, by rw [text_of_holds h.2.2]; rfl⟩, fun x w hw => ?_⟩
  have hlen : x.length = newVal.toList.length := by
    by_contra hn
    simp [object, access, hn] at hw
  have hx : access C memory t (.resize key newVal.toList.length) x c.1 =
      c.1.setVal key ⟨.string, String.ofList x⟩ := by simp [access, hlen]
  refine right_write hi h hx hw fun hi h => Ok.bind ?_
  refine right_putChars (by simpa using hlen) hi h fun c hi h => ?_
  rw [List.take_zero, List.nil_append, String.ofList_toList] at h
  -- the call is performed when the flag is cleared
  refine ok_call _ steady_writing hi h fun c hi h => ?_
  obtain ⟨⟨⟨hu, hm⟩, hs⟩, hl, hw⟩ := h
  refine ⟨⟨hl, by rw [text_of_holds hw]; rfl⟩, fun _ w hcl => ?_⟩
  cases hcl
  obtain ⟨s', e, hp, hmap, hr, hrefs⟩ := hlp c.2 hi.sound hu.1 hs.known
  have hsub : ∀ r ∈ c.2.refs, r ∈ s'.refs := fun r hr => hrefs ▸ hr
  have hne : ∀ k, k ≠ key → s'.map.map_.lookup k = c.2.map.map_.lookup k := fun k hk => by
    rw [hmap, c.2.map.lookup_put_ne _ hk]
  have hi' := hi.clear (hi.sound.next hp).1 hsub hne (hmap ▸ Holds.put hr) hw
  refine ⟨some out, s', .inr ⟨rfl, out, rfl, hp⟩, hi', fun u hne => ⟨?_, ?_⟩, ?_⟩
  · exact keepsMemory_clear hl u hne
  · exact keepsSession_put hmap hsub hr (hs.mayPut fun _ => hl) u hne
  · exact hQ _ hi' (hu.clear hsub) (hm.put rfl (fun _ _ => rfl) hmap)

end

end Omulator.Properties
