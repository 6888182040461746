import Omulator.Threads.Injection

/-!
# Who injects what

What the injections in progress, seen only by how far they have come, say about the state that
the threads share.
-/

namespace Omulator.Injection
open Omulator.Lib Omulator.Di

/-- How far an injection has come. -/
structure Class where
  /-- it has found no instance, and is not over -/
  active : Bool := false
  /-- and has put none in the map so far -/
  injecting : Bool := false
  /-- its type is on `typeHashStack_` -/
  stacked : Bool := false
  /-- the recipe has been run -/
  started : Bool := false
  /-- the instance is in the map -/
  present : Bool := false
  /-- it has `injectionMtx_` -/
  holds : Bool := false
  /-- and has set `isInCycleCheck_` -/
  flagged : Bool := false
  /-- it waits for `injectionMtx_` -/
  lock : Bool := false

def Pc.cls : Pc → Class
  | .has_instance => {}
  | .readFlag | .contains => { active := true, injecting := true }
  | .lock => { active := true, injecting := true, lock := true }
  | .setFlag => { active := true, injecting := true, holds := true }
  | .insert top => { active := true, injecting := true, holds := top, flagged := top }
  | .find top | .emplace top =>
    { active := true, injecting := true, stacked := true, holds := top, flagged := top }
  | .body top _ | .bound top _ | .emplace_impl top _ | .emplace_ptr top (some _) =>
    { active := true, injecting := true, stacked := true, started := true, holds := top,
      flagged := top }
  | .emplace_ptr top none =>
    { active := true, stacked := true, started := true, present := true, holds := top,
      flagged := top }
  | .clearFlag =>
    { active := true, stacked := true, present := true, holds := true, flagged := true }
  | .unlock => { active := true, stacked := true, present := true, holds := true }
  | .erase => { active := true, stacked := true, present := true }
  | .push_back | .ref => { present := true }

theorem resume_cls (p : Option Addr) (pc : Pc) : (pc.resume p).cls = pc.cls := by
  cases pc with
  | body top b => cases b <;> rfl
  | _ => rfl

theorem asks_cls {pc : Pc} (h : pc.asks.isSome = true) :
    pc.cls.lock = false ∧ pc.cls.holds = pc.cls.flagged := by
  cases pc with
  | body top b => exact ⟨rfl, rfl⟩
  | bound top impl => exact ⟨rfl, rfl⟩
  | _ => cases h

variable {n : ℕ}

def Thread.view (th : Thread) : List (Hash_t × Class) := th.frames.map fun f => (f.type, f.pc.cls)

abbrev Sys.view (s : Sys n) (t : Fin n) : List (Hash_t × Class) := (s.threads t).view

theorem view_flagged {th : Thread} {x : Hash_t × Class} (hx : x ∈ th.view)
    (h : x.2.flagged = true) : x.2.holds = true := by
  unfold Thread.view at hx
  rw [List.mem_map] at hx
  obtain ⟨f, -, rfl⟩ := hx
  dsimp only at h ⊢
  cases hpc : f.pc with
  | emplace_ptr top p => cases p <;> rw [hpc] at h <;> exact h
  | _ => rw [hpc] at h; first | exact h | cases h

theorem view_injecting {th : Thread} {x : Hash_t × Class} (hx : x ∈ th.view)
    (h : x.2.active = true) : x.2.injecting = true ∨ x.2.present = true := by
  unfold Thread.view at hx
  rw [List.mem_map] at hx
  obtain ⟨f, -, rfl⟩ := hx
  dsimp only at h ⊢
  cases hpc : f.pc with
  | emplace_ptr top p => cases p <;> simp [Pc.cls]
  | _ => rw [hpc] at h; first | (simp [Pc.cls]; done) | cases h

theorem view_active {th : Thread} {x : Hash_t × Class} (hx : x ∈ th.view)
    (h : x.2.injecting = true ∨ x.2.stacked = true ∨ x.2.started = true) :
    x.2.active = true := by
  unfold Thread.view at hx
  rw [List.mem_map] at hx
  obtain ⟨f, -, rfl⟩ := hx
  dsimp only at h ⊢
  cases hpc : f.pc with
  | emplace_ptr top p => cases p <;> rfl
  | _ => rw [hpc] at h; first | rfl | simp [Pc.cls] at h

/-- In each type at most one thread injects at a time; what is injected is not in the map, and what
has been is; a recipe has been run at most once; and the mutex, the flag and the stack say what
the injections in progress have done to them. -/
structure Exclusive (s : Sys n) : Prop where
  unique : ∀ t u x y, x ∈ s.view t → y ∈ s.view u → x.1 = y.1 → x.2.active = true →
    y.2.active = true → t = u
  absent : ∀ t x, x ∈ s.view t → x.2.injecting = true → s.shared.typeMap_.lookup x.1 = none
  present : ∀ t x, x ∈ s.view t → x.2.present = true →
    (s.shared.typeMap_.lookup x.1).isSome = true
  stack : ∀ T, T ∈ s.shared.typeHashStack_ ↔ ∃ t x, x ∈ s.view t ∧ x.1 = T ∧ x.2.stacked = true
  once : ∀ T, s.shared.ran.count T ≤ 1
  unrun : ∀ T, s.shared.typeMap_.lookup T = none →
    (∀ t x, x ∈ s.view t → x.1 = T → x.2.started = false) → s.shared.ran.count T = 0
  mutex : ∀ t, s.shared.injectionMtx_ = some t ↔ ∃ x ∈ s.view t, x.2.holds = true
  held : ∀ t x y, x ∈ s.view t → y ∈ s.view t → x.2.holds = true → y.2.holds = true → x.1 = y.1
  flag : s.shared.isInCycleCheck_ = true ↔ ∃ t x, x ∈ s.view t ∧ x.2.flagged = true
  free : ∀ t x y, x ∈ s.view t → y ∈ s.view t → x.2.lock = true → y.2.holds = false

/-- What one step of the injection of `T` in the thread `t`, from `c` to `c'`, does to the shared
state. -/
structure Moved (t : Fin n) (T : Hash_t) (c c' : Class) (sh sh' : Shared n) : Prop where
  others : ∀ U, U ≠ T → sh'.typeMap_.lookup U = sh.typeMap_.lookup U
  keep : ∀ e, sh.typeMap_.lookup T = some e → sh'.typeMap_.lookup T = some e
  injecting : c'.injecting = true → sh'.typeMap_ = sh.typeMap_ ∧
    (c.injecting = true ∨ sh.typeMap_.lookup T = none)
  idle : c.active = false → sh'.typeMap_ = sh.typeMap_
  present : c'.present = true → (c.present = true → (sh.typeMap_.lookup T).isSome = true) →
    (sh'.typeMap_.lookup T).isSome = true
  active : c'.active = true → c.active = true ∨ sh.typeMap_.lookup T = none
  stack : sh'.typeHashStack_ = sh.typeHashStack_ ∧ c'.stacked = c.stacked ∨
    sh'.typeHashStack_ = insert T sh.typeHashStack_ ∧ c.active = true ∧ c'.stacked = true ∨
    sh'.typeHashStack_ = sh.typeHashStack_.erase T ∧ c.active = true ∧ c'.stacked = false
  ran : sh'.ran = sh.ran ∧ (c'.started = true → c.started = true) ∨
    sh'.ran = sh.ran ++ [T] ∧ c.injecting = true ∧ c.started = false ∧ c'.started = true
  started : c.started = true → c'.started = true ∨ (sh'.typeMap_.lookup T).isSome = true
  mutex : sh'.injectionMtx_ = sh.injectionMtx_ ∧ c'.holds = c.holds ∨
    sh.injectionMtx_ = none ∧ sh'.injectionMtx_ = some t ∧ c'.holds = true ∨
    sh'.injectionMtx_ = none ∧ c.holds = true ∧ c'.holds = false
  flag : sh'.isInCycleCheck_ = sh.isInCycleCheck_ ∧ c'.flagged = c.flagged ∨
    sh'.isInCycleCheck_ = true ∧ c'.flagged = true ∨
    sh'.isInCycleCheck_ = false ∧ c.flagged = true ∧ c'.flagged = false
  lock : c'.lock = true → sh.isInCycleCheck_ = false ∧ sh'.isInCycleCheck_ = false ∧
    c'.holds = false

/-- No effect on the shared state, as when a `get` begins or returns. -/
def Class.Outside (c : Class) : Prop :=
  c.active = false ∧ c.injecting = false ∧ c.stacked = false ∧ c.started = false ∧
    c.holds = false ∧ c.flagged = false ∧ c.lock = false

theorem Moved.outside {t : Fin n} {T : Hash_t} {c : Class} {sh : Shared n} (h : c.Outside) :
    Moved t T c c sh sh := by
  obtain ⟨ha, hi, hst, hs, hh, hf, hl⟩ := h
  refine ⟨fun _ _ => rfl, fun _ => id, ?_, fun _ => rfl, fun hc hp => hp hc, Or.inl,
    Or.inl ⟨rfl, rfl⟩, Or.inl ⟨rfl, id⟩, Or.inl, Or.inl ⟨rfl, rfl⟩, Or.inl ⟨rfl, rfl⟩, ?_⟩
  · rw [hi]
    intro h
    cases h
  · rw [hl]
    intro h
    cases h

/-- If the injection begins with this step, no other thread is on the way to put the type in the
map. -/
def Begins (t : Fin n) (T : Hash_t) (c c' : Class) (s : Sys n) : Prop :=
  c.active = false → c'.active = true →
    ∀ u x, u ≠ t → x ∈ s.view u → x.1 = T → x.2.injecting = false

def Below (T : Hash_t) (x : Hash_t × Class) : Prop :=
  x.1 ≠ T ∧ x.2.lock = false ∧ x.2.holds = x.2.flagged

/-- From `s` to `s'` the thread `t` has replaced `(T, c)` by `(T, c')`, where `c` may stand for an
injection that was not there, and `c'` for one that is not there any more. -/
structure Change (t : Fin n) (T : Hash_t) (c c' : Class) (s s' : Sys n) : Prop where
  moved : Moved t T c c' s.shared s'.shared
  there : (T, c) ∈ s.view t ∨ c.Outside ∧ c.present = false
  there' : (T, c') ∈ s'.view t ∨ c'.Outside
  old : ∀ u x, x ∈ s.view u → u = t ∧ x = (T, c) ∨ x ∈ s'.view u ∧ (u = t → Below T x)
  new : ∀ u x, x ∈ s'.view u → u = t ∧ x = (T, c') ∨ x ∈ s.view u ∧ (u = t → Below T x)

/-! ### Each step keeps it -/

section
variable {t : Fin n} {T : Hash_t} {c c' : Class} {s s' : Sys n}

namespace Change

theorem mem (h : Change t T c c' s s') (hc : ¬ (c.Outside ∧ c.present = false)) :
    (T, c) ∈ s.view t := h.there.resolve_right hc

theorem mem_of_active (h : Change t T c c' s s') (hc : c.active = true) : (T, c) ∈ s.view t :=
  h.mem fun ho => by simp [ho.1.1] at hc

theorem mem_of_holds (h : Change t T c c' s s') (hc : c.holds = true) : (T, c) ∈ s.view t :=
  h.mem fun ho => by simp [ho.1.2.2.2.2.1] at hc

theorem mem' (h : Change t T c c' s s') (hc : ¬ c'.Outside) : (T, c') ∈ s'.view t :=
  h.there'.resolve_right hc

/-- While `T` is injected in `t`, it is not elsewhere. -/
theorem rival (h : Exclusive s) (hch : Change t T c c' s s') (hmiss : Begins t T c c' s)
    (hact : c.active = true ∨ c'.active = true) {u : Fin n} {x : Hash_t × Class}
    (hx : x ∈ s.view u) (hbelow : u = t → Below T x) (hxT : x.1 = T) : x.2.active = false := by
  have hu : u ≠ t := fun hu => (hbelow hu).1 hxT
  by_contra hxa
  have hxa : x.2.active = true := by simpa using hxa
  by_cases hc : c.active = true
  · exact hu (h.unique t u (T, c) x (hch.mem_of_active hc) hx hxT.symm hc hxa).symm
  · have hc' := hact.resolve_left hc
    have hnone := (hch.moved.active hc').resolve_left hc
    rcases view_injecting hx hxa with hi | hp
    · rw [hmiss (by simpa using hc) hc' u x hu hx hxT] at hi
      cases hi
    · have hsome := h.present u x hx hp
      rw [hxT, hnone] at hsome
      cases hsome

theorem unique (h : Exclusive s) (hch : Change t T c c' s s') (hmiss : Begins t T c c' s)
    {u v : Fin n} {x y : Hash_t × Class} (hx : x ∈ s'.view u) (hy : y ∈ s'.view v) (hxy : x.1 = y.1)
    (hxa : x.2.active = true) (hya : y.2.active = true) : u = v := by
  rcases hch.new u x hx with ⟨rfl, rfl⟩ | ⟨hx, hbx⟩ <;>
    rcases hch.new v y hy with ⟨rfl, rfl⟩ | ⟨hy, hby⟩
  · rfl
  · rw [rival h hch hmiss (Or.inr hxa) hy hby hxy.symm] at hya
    cases hya
  · rw [rival h hch hmiss (Or.inr hya) hx hbx hxy] at hxa
    cases hxa
  · exact h.unique u v x y hx hy hxy hxa hya

theorem absent (h : Exclusive s) (hch : Change t T c c' s s') (hmiss : Begins t T c c' s)
    {u : Fin n} {x : Hash_t × Class} (hx : x ∈ s'.view u) (hi : x.2.injecting = true) :
    s'.shared.typeMap_.lookup x.1 = none := by
  rcases hch.new u x hx with ⟨rfl, rfl⟩ | ⟨hx, hbx⟩
  · obtain ⟨hmap, hc | hnone⟩ := hch.moved.injecting hi
    · have hmem : (T, c) ∈ s.view u := hch.mem fun ho => by simp [ho.1.2.1] at hc
      rw [hmap]
      exact h.absent u (T, c) hmem hc
    · rw [hmap]
      exact hnone
  · by_cases hxT : x.1 = T
    · have hxa := view_active hx (Or.inl hi)
      by_cases hc : c.active = true
      · rw [rival h hch hmiss (Or.inl hc) hx hbx hxT] at hxa
        cases hxa
      · rw [hch.moved.idle (by simpa using hc)]
        exact h.absent u x hx hi
    · rw [hch.moved.others x.1 hxT]
      exact h.absent u x hx hi

theorem present (h : Exclusive s) (hch : Change t T c c' s s') {u : Fin n}
    {x : Hash_t × Class} (hx : x ∈ s'.view u) (hp : x.2.present = true) :
    (s'.shared.typeMap_.lookup x.1).isSome = true := by
  rcases hch.new u x hx with ⟨rfl, rfl⟩ | ⟨hx, hbx⟩
  · refine hch.moved.present hp fun hc => ?_
    have hmem : (T, c) ∈ s.view u := hch.mem fun ho => by simp [ho.2] at hc
    exact h.present u (T, c) hmem hc
  · have hsome := h.present u x hx hp
    by_cases hxT : x.1 = T
    · obtain ⟨e, he⟩ := Option.isSome_iff_exists.mp hsome
      rw [hxT] at he ⊢
      rw [hch.moved.keep e he]
      rfl
    · rw [hch.moved.others x.1 hxT]
      exact hsome

theorem exists_ne (hch : Change t T c c' s s') {U : Hash_t} (hU : U ≠ T)
    (P : Class → Prop) : (∃ u x, x ∈ s'.view u ∧ x.1 = U ∧ P x.2) ↔
      ∃ u x, x ∈ s.view u ∧ x.1 = U ∧ P x.2 := by
  constructor
  · rintro ⟨u, x, hx, hxU, hP⟩
    rcases hch.new u x hx with ⟨rfl, rfl⟩ | ⟨hx, -⟩
    · exact absurd hxU.symm hU
    · exact ⟨u, x, hx, hxU, hP⟩
  · rintro ⟨u, x, hx, hxU, hP⟩
    rcases hch.old u x hx with ⟨rfl, rfl⟩ | ⟨hx, -⟩
    · exact absurd hxU.symm hU
    · exact ⟨u, x, hx, hxU, hP⟩

theorem stack (h : Exclusive s) (hch : Change t T c c' s s') (hmiss : Begins t T c c' s)
    (U : Hash_t) :
    U ∈ s'.shared.typeHashStack_ ↔ ∃ u x, x ∈ s'.view u ∧ x.1 = U ∧ x.2.stacked = true := by
  by_cases hU : U = T
  · subst hU
    rcases hch.moved.stack with ⟨hs, hc⟩ | ⟨hs, -, hc⟩ | ⟨hs, hact, hc⟩
    · rw [hs, h.stack]
      constructor
      · rintro ⟨u, x, hx, hxU, hst⟩
        rcases hch.old u x hx with ⟨rfl, rfl⟩ | ⟨hx, -⟩
        · have hc' : c'.stacked = true := hc.trans hst
          exact ⟨u, _, hch.mem' fun ho => by simp [ho.2.2.1] at hc', rfl, hc'⟩
        · exact ⟨u, x, hx, hxU, hst⟩
      · rintro ⟨u, x, hx, hxU, hst⟩
        rcases hch.new u x hx with ⟨rfl, rfl⟩ | ⟨hx, -⟩
        · have hc' : c.stacked = true := hc.symm.trans hst
          exact ⟨u, _, hch.mem fun ho => by simp [ho.1.2.2.1] at hc', rfl, hc'⟩
        · exact ⟨u, x, hx, hxU, hst⟩
    · refine iff_of_true (by rw [hs]; exact Finset.mem_insert_self ..) ?_
      exact ⟨t, _, hch.mem' fun ho => by simp [ho.2.2.1] at hc, rfl, hc⟩
    · refine iff_of_false (by rw [hs]; simp) ?_
      rintro ⟨u, x, hx, hxU, hst⟩
      rcases hch.new u x hx with ⟨rfl, rfl⟩ | ⟨hx, hbx⟩
      · rw [hc] at hst
        cases hst
      · have hxa := view_active hx (Or.inr (Or.inl hst))
        rw [rival h hch hmiss (Or.inl hact) hx hbx hxU] at hxa
        cases hxa
  · have hsame : U ∈ s'.shared.typeHashStack_ ↔ U ∈ s.shared.typeHashStack_ := by
      rcases hch.moved.stack with ⟨hs, -⟩ | ⟨hs, -⟩ | ⟨hs, -⟩ <;> rw [hs] <;> simp [hU]
    rw [hsame, h.stack, hch.exists_ne hU fun c => c.stacked = true]

theorem run_first (h : Exclusive s) (hch : Change t T c c' s s') (hmiss : Begins t T c c' s)
    (hi : c.injecting = true) (hst : c.started = false) : s.shared.ran.count T = 0 := by
  have hmem : (T, c) ∈ s.view t := hch.mem fun ho => by simp [ho.1.2.1] at hi
  have hact : c.active = true := view_active hmem (Or.inl hi)
  refine h.unrun T (h.absent t _ hmem hi) fun u x hx hxT => ?_
  rcases hch.old u x hx with ⟨rfl, rfl⟩ | ⟨-, hbx⟩
  · exact hst
  · by_contra hs
    have hxa := view_active hx (Or.inr (Or.inr (by simpa using hs)))
    rw [rival h hch hmiss (Or.inl hact) hx hbx hxT] at hxa
    cases hxa

theorem once (h : Exclusive s) (hch : Change t T c c' s s') (hmiss : Begins t T c c' s)
    (U : Hash_t) :
    s'.shared.ran.count U ≤ 1 := by
  rcases hch.moved.ran with ⟨hr, -⟩ | ⟨hr, hi, hst, -⟩
  · rw [hr]
    exact h.once U
  · rw [hr, List.count_append]
    by_cases hU : U = T
    · subst hU
      have hz := run_first h hch hmiss hi hst
      rw [hz]
      simp
    · have hz : [T].count U = 0 := List.count_eq_zero.mpr (by simpa using hU)
      have ho := h.once U
      omega

theorem unrun (h : Exclusive s) (hch : Change t T c c' s s') {U : Hash_t}
    (hnone : s'.shared.typeMap_.lookup U = none)
    (hall : ∀ u x, x ∈ s'.view u → x.1 = U → x.2.started = false) :
    s'.shared.ran.count U = 0 := by
  have hnone₀ : s.shared.typeMap_.lookup U = none := by
    by_cases hU : U = T
    · subst hU
      by_contra hne
      obtain ⟨e, he⟩ := Option.ne_none_iff_exists'.mp hne
      rw [hch.moved.keep e he] at hnone
      cases hnone
    · rw [← hch.moved.others U hU]
      exact hnone
  have hall₀ : ∀ u x, x ∈ s.view u → x.1 = U → x.2.started = false := by
    intro u x hx hxU
    rcases hch.old u x hx with ⟨rfl, rfl⟩ | ⟨hx, -⟩
    · by_contra hs
      rcases hch.moved.started (by simpa using hs) with hs' | hsome
      · have hmem := hch.mem' fun ho => by simp [ho.2.2.2.1] at hs'
        rw [hall u _ hmem hxU] at hs'
        cases hs'
      · have hTU : T = U := hxU
        rw [hTU, hnone] at hsome
        cases hsome
    · exact hall u x hx hxU
  have hz := h.unrun U hnone₀ hall₀
  rcases hch.moved.ran with ⟨hr, -⟩ | ⟨hr, -, -, hst⟩
  · rw [hr, hz]
  · have hU : U ≠ T := by
      rintro rfl
      have hmem := hch.mem' fun ho => by simp [ho.2.2.2.1] at hst
      rw [hall t _ hmem rfl] at hst
      cases hst
    rw [hr, List.count_append, hz, List.count_eq_zero.mpr (by simpa using hU)]

theorem mutex (h : Exclusive s) (hch : Change t T c c' s s') (u : Fin n) :
    s'.shared.injectionMtx_ = some u ↔ ∃ x ∈ s'.view u, x.2.holds = true := by
  rcases hch.moved.mutex with ⟨hm, hc⟩ | ⟨hnone, hm, hc⟩ | ⟨hm, hc, hc'⟩
  · rw [hm, h.mutex]
    constructor
    · rintro ⟨x, hx, hh⟩
      rcases hch.old u x hx with ⟨rfl, rfl⟩ | ⟨hx, -⟩
      · have hc' : c'.holds = true := hc.trans hh
        exact ⟨_, hch.mem' fun ho => by simp [ho.2.2.2.2.1] at hc', hc'⟩
      · exact ⟨x, hx, hh⟩
    · rintro ⟨x, hx, hh⟩
      rcases hch.new u x hx with ⟨rfl, rfl⟩ | ⟨hx, -⟩
      · have hc' : c.holds = true := hc.symm.trans hh
        exact ⟨_, hch.mem_of_holds hc', hc'⟩
      · exact ⟨x, hx, hh⟩
  · have hmem := hch.mem' fun ho => by simp [ho.2.2.2.2.1] at hc
    rw [hm]
    constructor
    · rintro hu
      cases hu
      exact ⟨_, hmem, hc⟩
    · rintro ⟨x, hx, hh⟩
      rcases hch.new u x hx with ⟨rfl, rfl⟩ | ⟨hx, -⟩
      · rfl
      · have hsome := (h.mutex u).mpr ⟨x, hx, hh⟩
        rw [hnone] at hsome
        cases hsome
  · have hmem := hch.mem_of_holds hc
    rw [hm]
    refine iff_of_false (by simp) ?_
    rintro ⟨x, hx, hh⟩
    rcases hch.new u x hx with ⟨rfl, rfl⟩ | ⟨hx, hbx⟩
    · rw [hc'] at hh
      cases hh
    · have hut : u = t := by
        have hu := (h.mutex u).mpr ⟨x, hx, hh⟩
        rw [(h.mutex t).mpr ⟨_, hmem, hc⟩] at hu
        exact (Option.some.inj hu).symm
      subst hut
      exact (hbx rfl).1 (h.held u x _ hx hmem hh hc)

theorem held (h : Exclusive s) (hch : Change t T c c' s s') {u : Fin n} {x y : Hash_t × Class}
    (hx : x ∈ s'.view u) (hy : y ∈ s'.view u) (hxh : x.2.holds = true) (hyh : y.2.holds = true) :
    x.1 = y.1 := by
  have hone : ∀ z, z ∈ s.view t → z.2.holds = true → c'.holds = true → z.1 = T := by
    intro z hz hzh hc'
    rcases hch.moved.mutex with ⟨-, hc⟩ | ⟨hnone, -, -⟩ | ⟨-, -, hc⟩
    · have hch' : c.holds = true := hc.symm.trans hc'
      exact h.held t z _ hz (hch.mem_of_holds hch') hzh hch'
    · have hsome := (h.mutex t).mpr ⟨z, hz, hzh⟩
      rw [hnone] at hsome
      cases hsome
    · rw [hc] at hc'
      cases hc'
  rcases hch.new u x hx with ⟨rfl, rfl⟩ | ⟨hx, -⟩ <;>
    rcases hch.new _ y hy with ⟨hu, rfl⟩ | ⟨hy, -⟩
  · rfl
  · exact (hone y hy hyh hxh).symm
  · subst hu
    exact hone x hx hxh hyh
  · exact h.held u x y hx hy hxh hyh

theorem flag (h : Exclusive s) (hch : Change t T c c' s s') :
    s'.shared.isInCycleCheck_ = true ↔ ∃ u x, x ∈ s'.view u ∧ x.2.flagged = true := by
  rcases hch.moved.flag with ⟨hf, hc⟩ | ⟨hf, hc⟩ | ⟨hf, hc, hc'⟩
  · rw [hf, h.flag]
    constructor
    · rintro ⟨u, x, hx, hh⟩
      rcases hch.old u x hx with ⟨rfl, rfl⟩ | ⟨hx, -⟩
      · have hc' : c'.flagged = true := hc.trans hh
        exact ⟨u, _, hch.mem' fun ho => by simp [ho.2.2.2.2.2.1] at hc', hc'⟩
      · exact ⟨u, x, hx, hh⟩
    · rintro ⟨u, x, hx, hh⟩
      rcases hch.new u x hx with ⟨rfl, rfl⟩ | ⟨hx, -⟩
      · have hc' : c.flagged = true := hc.symm.trans hh
        exact ⟨u, _, hch.mem fun ho => by simp [ho.1.2.2.2.2.2.1] at hc', hc'⟩
      · exact ⟨u, x, hx, hh⟩
  · exact iff_of_true hf ⟨t, _, hch.mem' fun ho => by simp [ho.2.2.2.2.2.1] at hc, hc⟩
  · refine iff_of_false (by rw [hf]; simp) ?_
    rintro ⟨u, x, hx, hfl⟩
    rcases hch.new u x hx with ⟨rfl, rfl⟩ | ⟨hx, hbx⟩
    · rw [hc'] at hfl
      cases hfl
    · -- both would have the mutex
      have hmem := hch.mem fun ho => by simp [ho.1.2.2.2.2.2.1] at hc
      have hxh := view_flagged hx hfl
      have hch' : c.holds = true := view_flagged hmem hc
      have hut : u = t := by
        have hu := (h.mutex u).mpr ⟨x, hx, hxh⟩
        rw [(h.mutex t).mpr ⟨_, hmem, hch'⟩] at hu
        exact (Option.some.inj hu).symm
      subst hut
      exact (hbx rfl).1 (h.held u x _ hx hmem hxh hch')

theorem free (h : Exclusive s) (hch : Change t T c c' s s') {u : Fin n} {x y : Hash_t × Class}
    (hx : x ∈ s'.view u) (hy : y ∈ s'.view u) (hl : x.2.lock = true) : y.2.holds = false := by
  rcases hch.new u x hx with ⟨rfl, rfl⟩ | ⟨hx, hbx⟩
  · obtain ⟨hflag, -, hc'⟩ := hch.moved.lock hl
    rcases hch.new u y hy with ⟨-, rfl⟩ | ⟨hy, hby⟩
    · exact hc'
    · by_contra hh
      have hfl : y.2.flagged = true := by
        rw [← (hby rfl).2.2]
        simpa using hh
      rw [h.flag.mpr ⟨u, y, hy, hfl⟩] at hflag
      cases hflag
  · by_cases hu : u = t
    · rw [(hbx hu).2.1] at hl
      cases hl
    · rcases hch.new u y hy with ⟨rfl, -⟩ | ⟨hy, -⟩
      · exact absurd rfl hu
      · exact h.free u x y hx hy hl

end Change

theorem Exclusive.change (h : Exclusive s) (hch : Change t T c c' s s')
    (hmiss : Begins t T c c' s) : Exclusive s' where
  unique _ _ _ _ := Change.unique h hch hmiss
  absent _ _ := Change.absent h hch hmiss
  present _ _ := Change.present h hch
  stack := Change.stack h hch hmiss
  once := Change.once h hch hmiss
  unrun _ := Change.unrun h hch
  mutex := Change.mutex h hch
  held _ _ _ := Change.held h hch
  flag := Change.flag h hch
  free _ _ _ := Change.free h hch

end
end Omulator.Injection
