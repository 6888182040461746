import Omulator.Lib.Linearizable

/-!
# Monitors

An object each of whose calls is made under one mutex. While the mutex is free its data show a
state of the object, and calls that are right when they are alone are linearizable.
-/

namespace Omulator.Lib

structure Monitor (Op R Acc : Type) (Ans : Acc → Type) (X : Type) where
  /-- what a call does under the mutex -/
  body : Op → Script Acc Ans R
  access : (a : Acc) → Ans a → X → Option X

namespace Monitor
variable {T Op R Acc X S α : Type} {Ans : Acc → Type}

inductive Access (Acc : Type) where
  | lock
  | unlock
  | under (a : Acc)
  deriving DecidableEq

abbrev Answer (Ans : Acc → Type) : Access Acc → Type
  | .lock | .unlock => Unit
  | .under a => Ans a

structure Memory (T X : Type) where
  mtx : Option T := none
  data : X

def lift : Script Acc Ans α → Script (Access Acc) (Answer Ans) α
  | .ret a => .ret a
  | .call a k => .call (.under a) fun x => lift (k x)

def locked (p : Script Acc Ans α) : Script (Access Acc) (Answer Ans) α :=
  .call .lock fun _ => lift p >>= fun a => .call .unlock fun _ => .ret a

variable (M : Monitor Op R Acc Ans X)

def Answered (a : Acc) (data : X) : Prop := ∃ x data', M.access a x data = some data'

def object (T : Type) [DecidableEq T] :
    Object T Op R (Access Acc) (Answer Ans) (Memory T X) where
  admits _ _ := true
  body op := locked (M.body op)
  access
    | t, .lock, _, w => if w.mtx = none then some { w with mtx := some t } else none
    | _, .unlock, _, w => some { w with mtx := none }
    | _, .under a, x, w => (M.access a x w.data).map fun data => { w with data }
  fine
    | t, .lock, w => w.mtx ≠ some t
    | t, .unlock, w => w.mtx = some t
    | t, .under a, w => w.mtx = some t ∧ M.Answered a w.data

def service : Service Acc Ans Empty X where
  answer := M.access
  drift d _ := nomatch d

def Alone (Q : α → X → Prop) (p : Script Acc Ans α) (data : X) : Prop :=
  p.Safe M.service M.Answered (fun _ _ => True) Q data

/-- Alone, each call performs what it is to perform. -/
def Right (perform : S → Op × R → S → Prop) (shows : X → S → Prop) : Prop :=
  ∀ op data s, shows data s →
    M.Alone (fun r data' => ∃ s', perform s (op, r) s' ∧ shows data' s') (M.body op) data

variable {M} {perform : S → Op × R → S → Prop} {shows : X → S → Prop}

theorem alone_call {Q : α → X → Prop} {a : Acc} {k : Ans a → Script Acc Ans α} {x : Ans a}
    {data data' : X} (hx : M.access a x data = some data')
    (honly : ∀ y data'', M.access a y data = some data'' → y = x ∧ data'' = data')
    (hk : M.Alone Q (k x) data') : M.Alone Q (.call a k) data := by
  intro w hw
  have hsame : data = w := by
    induction hw with
    | refl => rfl
    | tail _ hd _ =>
      obtain ⟨d, -⟩ := hd
      exact nomatch d
  subst hsame
  refine ⟨⟨x, data', hx⟩, fun y w hy hw => ?_⟩
  obtain ⟨rfl, rfl⟩ := honly y w hw
  exact hk

/-! ### The threads -/

def Inv (shows : X → S → Prop) (c : Memory T X × S) : Prop := c.1.mtx = none → shows c.1.data c.2

/-- Nobody touches what another thread has locked. -/
def Guar (u : T) (c c' : Memory T X × S) : Prop :=
  ∀ t, t ≠ u → (c'.1.mtx = some t ↔ c.1.mtx = some t) ∧ (c.1.mtx = some t → c' = c)

variable {t : T} {op : Op} {c c' : Memory T X × S}

theorem stable_idle : Object.Stable (Inv shows) Guar t fun c => c.1.mtx ≠ some t := by
  intro c c' u hu _ h hg _ hm
  exact h ((hg t (Ne.symm hu)).1.mp hm)

theorem stable_locked (hc : c.1.mtx = some t) :
    Object.Stable (Inv shows) Guar t fun c' => c' = c := by
  rintro c₁ c' u hu - rfl hg -
  exact (hg t (Ne.symm hu)).2 hc

theorem guar_mutex (hc : c.1.mtx = none ∨ c.1.mtx = some t)
    (hc' : c'.1.mtx = none ∨ c'.1.mtx = some t) : Guar t c c' := by
  have hother : ∀ {m : Option T}, m = none ∨ m = some t → ∀ u, u ≠ t → m ≠ some u := by
    rintro m (rfl | rfl) u hu
    · exact fun h => nomatch h
    · exact fun h => hu (Option.some.inj h).symm
  intro u hu
  have hne := hother hc u hu
  exact ⟨iff_of_false (hother hc' u hu) hne, fun h => absurd h hne⟩

section
variable [DecidableEq T]

theorem ok_lift {Q : α → X → Prop} {p : Script Acc Ans α} {data : X} (s : S)
    (h : M.Alone Q p data) : (M.object T).Ok perform (Inv shows) Guar t op
      (fun a d c => d = none ∧ ∃ data', c = (⟨some t, data'⟩, s) ∧ Q a data')
      (lift p) none (⟨some t, data⟩, s) := by
  induction p generalizing data with
  | ret a => exact ⟨rfl, data, rfl, h⟩
  | call a k ih =>
    refine Object.ok_call _ (stable_locked rfl) (fun hm => nomatch hm) rfl fun c' _ hc => ?_
    subst hc
    obtain ⟨hanswered, hk⟩ := h data .refl
    refine ⟨⟨rfl, hanswered⟩, fun x w hw => ?_⟩
    obtain ⟨data', hx, rfl⟩ := Option.map_eq_some_iff.mp hw
    exact ⟨none, s, .inl ⟨rfl, rfl⟩, (fun hm => nomatch hm), guar_mutex (.inr rfl) (.inr rfl),
      ih x (hk x data' trivial hx)⟩

theorem ok_locked {s : S} {w : Memory T X} (hM : M.Right perform shows)
    (hi : Inv shows (w, s)) (h : w.mtx ≠ some t) :
    (M.object T).Ok perform (Inv shows) Guar t op
      (fun r d c => d = some r ∧ c.1.mtx ≠ some t) (locked (M.body op)) none (w, s) := by
  refine Object.ok_call _ stable_idle hi h fun c hi h => ⟨h, fun _ w hw => ?_⟩
  obtain ⟨⟨mtx, data⟩, s⟩ := c
  simp only [object] at hw
  split at hw
  · rename_i hfree
    cases hw
    have hshows : shows data s := hi hfree
    refine ⟨none, s, .inl ⟨rfl, rfl⟩, (fun hm => nomatch hm), guar_mutex (.inl hfree) (.inr rfl),
      ?_⟩
    refine Object.Ok.bind ((ok_lift s (hM op data s hshows)).mono ?_)
    rintro r d c ⟨rfl, data', rfl, s', hperform, hshows'⟩
    refine Object.ok_call _ (stable_locked rfl) (fun hm => nomatch hm) rfl fun c' _ hc => ?_
    subst hc
    refine ⟨rfl, fun _ w hw => ?_⟩
    cases hw
    exact ⟨some r, s', .inr ⟨rfl, r, rfl, hperform⟩, fun _ => hshows',
      guar_mutex (.inr rfl) (.inl rfl), rfl, fun hm => nomatch hm⟩
  · cases hw

theorem atomic (hM : M.Right perform shows) : Object.Atomic (M.object T) perform (Inv shows) Guar
    fun t c => c.1.mtx ≠ some t where
  stable _ := stable_idle
  body _ _ _ hi h _ := ok_locked hM hi h

variable [DecidableEq Acc]

theorem linearizable {data : X} {s₀ : S}
    {s : Threads T Op R (Access Acc) (Answer Ans) (Memory T X)}
    (hM : M.Right perform shows) (h₀ : shows data s₀)
    (h : Run (M.object T).Steps ⟨⟨none, data⟩, fun _ => none, []⟩ s) :
    (∃ L, Linearizes perform s₀ s.history L) ∧
      ∀ t a k, s.calls t = some (.call a k) → (M.object T).fine t a s.memory :=
  Object.linearizable (atomic hM) (fun _ => h₀) (fun _ => by simp) h

end
end Monitor
end Omulator.Lib
