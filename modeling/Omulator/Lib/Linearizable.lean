import Omulator.Lib.Script

/-!
# Linearizable objects

Threads call the operations of an object whose memory they share. A call is a script of accesses
to the memory, and between two accesses of one thread the others make theirs. The calls have the
results that they would have if each of them were performed at once, somewhere between its
beginning and its end, when a rely-guarantee argument shows it for one call at a time.
-/

namespace Omulator.Lib

/-! ### Histories -/

inductive Event (T Op R : Type) where
  | invoke (t : T) (op : Op)
  | ret (t : T) (r : R)

namespace Event
variable {T Op R : Type} [DecidableEq T]

/-- The operations that `t` has begun, and the results it has got. -/
def invoked (t : T) (H : List (Event T Op R)) : List Op :=
  H.filterMap fun e => match e with
    | invoke u op => if u = t then some op else none
    | ret _ _ => none

def returned (t : T) (H : List (Event T Op R)) : List R :=
  H.filterMap fun e => match e with
    | invoke _ _ => none
    | ret u r => if u = t then some r else none

variable (t u : T) (H : List (Event T Op R)) (op : Op) (r : R)

theorem invoked_invoke :
    invoked t (H ++ [invoke u op]) = invoked t H ++ if u = t then [op] else [] := by
  by_cases h : u = t
  · simp [invoked, h]
  · simp [invoked, h]

@[simp] theorem returned_invoke : returned t (H ++ [invoke u op]) = returned t H := by
  simp [returned]

@[simp] theorem invoked_ret : invoked t (H ++ [ret u r]) = invoked t H := by simp [invoked]

theorem returned_ret :
    returned t (H ++ [ret u r]) = returned t H ++ if u = t then [r] else [] := by
  by_cases h : u = t
  · simp [returned, h]
  · simp [returned, h]

end Event

section
variable {T Op R S : Type}

/-- One after the other, the calls lead from a state to another. -/
def Sequence (perform : S → Op × R → S → Prop) : S → List (T × Op × R) → S → Prop
  | s, [], s' => s = s'
  | s, c :: L, s' => ∃ u, perform s c.2 u ∧ Sequence perform u L s'

theorem Sequence.concat {perform : S → Op × R → S → Prop} {s u s' : S} {L : List (T × Op × R)}
    {c : T × Op × R} (h : Sequence perform s L u) (hc : perform u c.2 s') :
    Sequence perform s (L ++ [c]) s' := by
  induction L generalizing s with
  | nil =>
    cases h
    exact ⟨s', hc, rfl⟩
  | cons b L ih =>
    obtain ⟨v, hv, h⟩ := h
    exact ⟨v, hv, ih h⟩

variable [DecidableEq T]

def callsOf (t : T) (L : List (T × Op × R)) : List (Op × R) :=
  L.filterMap fun c => if c.1 = t then some c.2 else none

@[simp] theorem callsOf_nil (t : T) : callsOf t ([] : List (T × Op × R)) = [] := rfl

theorem callsOf_concat (t u : T) (L : List (T × Op × R)) (op : Op) (r : R) :
    callsOf t (L ++ [(u, op, r)]) = callsOf t L ++ if u = t then [(op, r)] else [] := by
  by_cases h : u = t
  · simp [callsOf, h]
  · simp [callsOf, h]

/-- The calls of `L` have begun in `H`, and those that have ended there are in `L`, with the results
they had. -/
structure Explains (H : List (Event T Op R)) (L : List (T × Op × R)) : Prop where
  ops : ∀ t, (callsOf t L).map Prod.fst <+: Event.invoked t H
  results : ∀ t, Event.returned t H <+: (callsOf t L).map Prod.snd

/-- `L` is what the object would do if each call of the history `H` were performed at once. What
had ended at some point of `H` is before all that began later. -/
structure Linearizes (perform : S → Op × R → S → Prop) (s : S) (H : List (Event T Op R))
    (L : List (T × Op × R)) : Prop where
  legal : ∃ s', Sequence perform s L s'
  explains : Explains H L
  order : ∀ H', H' <+: H → ∃ L', L' <+: L ∧ Explains H' L'

end

/-! ### Objects -/

structure Object (T Op R Acc : Type) (Ans : Acc → Type) (W : Type) where
  /-- the calls that the users may make -/
  admits : Op → W → Bool
  body : Op → Script Acc Ans R
  /-- what an answer does to the memory, if it can be the answer; an access without an answer
  has to wait -/
  access : T → (a : Acc) → Ans a → W → Option W
  /-- the accesses that are defined -/
  fine : T → Acc → W → Prop

structure Threads (T Op R Acc : Type) (Ans : Acc → Type) (W : Type) where
  memory : W
  calls : T → Option (Script Acc Ans R) := fun _ => none
  history : List (Event T Op R) := []

namespace Object
variable {T Op R Acc W S α β : Type} {Ans : Acc → Type}

inductive Act (T Op Acc : Type) (Ans : Acc → Type) where
  | invoke (t : T) (op : Op)
  | access (t : T) (a : Acc) (x : Ans a)
  /-- an attempt that fails, and is made again -/
  | retry (t : T)
  | ret (t : T)

section
variable [DecidableEq T] [DecidableEq Acc]

def step (O : Object T Op R Acc Ans W) :
    Act T Op Acc Ans → Threads T Op R Acc Ans W → Option (Threads T Op R Acc Ans W)
  | .invoke t op, s =>
    match s.calls t with
    | none =>
      if O.admits op s.memory then
        some ⟨s.memory, Function.update s.calls t (some (O.body op)), s.history ++ [.invoke t op]⟩
      else none
    | some _ => none
  | .access t a x, s =>
    match s.calls t with
    | some (.call a' k) =>
      if h : a = a' then
        (O.access t a x s.memory).map fun w =>
          ⟨w, Function.update s.calls t (some (k (h ▸ x))), s.history⟩
      else none
    | some (.ret _) | none => none
  | .retry t, s => if (s.calls t).isSome then some s else none
  | .ret t, s =>
    match s.calls t with
    | some (.ret r) => some ⟨s.memory, Function.update s.calls t none, s.history ++ [.ret t r]⟩
    | some (.call _ _) | none => none

def Steps (O : Object T Op R Acc Ans W) (s : Threads T Op R Acc Ans W) (a : Act T Op Acc Ans)
    (s' : Threads T Op R Acc Ans W) : Prop := O.step a s = some s'

end

/-! ### One call at a time -/

section
variable (O : Object T Op R Acc Ans W) (perform : S → Op × R → S → Prop)
  (inv : W × S → Prop) (guar : T → W × S → W × S → Prop)

/-- What the other threads may do between two accesses of `t`. -/
def Rely (t : T) : W × S → W × S → Prop :=
  Relation.ReflTransGen fun c c' => ∃ u, u ≠ t ∧ guar u c c' ∧ inv c'

/-- `d` is the result of the call from the moment on when it is performed. -/
def Takes (op : Op) (d : Option R) (s : S) (d' : Option R) (s' : S) : Prop :=
  d' = d ∧ s' = s ∨ d = none ∧ ∃ r, d' = some r ∧ perform s (op, r) s'

/-- Whatever the other threads do, what remains of a call of `op` keeps the invariant and what it
has guaranteed to the others, performs the call once, and ends in `Q`. -/
def Ok (t : T) (op : Op) (Q : α → Option R → W × S → Prop) :
    Script Acc Ans α → Option R → W × S → Prop
  | .ret a, d, c => Q a d c
  | .call a k, d, c => ∀ c', Rely inv guar t c c' → O.fine t a c'.1 ∧
      ∀ x w, O.access t a x c'.1 = some w → ∃ d' s, Takes perform op d c'.2 d' s ∧
        inv (w, s) ∧ guar t c' (w, s) ∧ Ok t op Q (k x) d' (w, s)

def Stable (t : T) (P : W × S → Prop) : Prop :=
  ∀ c c' u, u ≠ t → inv c → P c → guar u c c' → inv c' → P c'

end

variable {O : Object T Op R Acc Ans W} {perform : S → Op × R → S → Prop}
  {inv : W × S → Prop} {guar : T → W × S → W × S → Prop} {t : T} {op : Op}

theorem Stable.of_rely {P : W × S → Prop} (hP : Stable inv guar t P) {c c' : W × S}
    (h : Rely inv guar t c c') (hi : inv c) (hc : P c) : inv c' ∧ P c' := by
  induction h with
  | refl => exact ⟨hi, hc⟩
  | tail _ hs ih =>
    obtain ⟨u, hu, hg, hi'⟩ := hs
    exact ⟨hi', hP _ _ u hu ih.1 ih.2 hg hi'⟩

theorem Stable.and {P P' : W × S → Prop} (hP : Stable inv guar t P)
    (hP' : Stable inv guar t P') : Stable inv guar t fun c => P c ∧ P' c :=
  fun c c' u hu hi h hg hi' => ⟨hP c c' u hu hi h.1 hg hi', hP' c c' u hu hi h.2 hg hi'⟩

theorem stable_const (p : Prop) : Stable inv guar t fun _ => p := fun _ _ _ _ _ h _ _ => h

theorem Ok.bind {Q : β → Option R → W × S → Prop} {f : α → Script Acc Ans β}
    {p : Script Acc Ans α} {d : Option R} {c : W × S}
    (h : O.Ok perform inv guar t op (fun a d c => O.Ok perform inv guar t op Q (f a) d c) p d c) :
    O.Ok perform inv guar t op Q (p >>= f) d c := by
  induction p generalizing d c with
  | ret a => exact h
  | call a k ih =>
    intro c' hc
    obtain ⟨hf, hk⟩ := h c' hc
    refine ⟨hf, fun x w hx => ?_⟩
    obtain ⟨d', s, ht, hi, hg, hok⟩ := hk x w hx
    exact ⟨d', s, ht, hi, hg, ih x hok⟩

theorem Ok.mono {Q Q' : α → Option R → W × S → Prop} {p : Script Acc Ans α} {d : Option R}
    {c : W × S} (h : O.Ok perform inv guar t op Q p d c) (hQ : ∀ a d c, Q a d c → Q' a d c) :
    O.Ok perform inv guar t op Q' p d c := by
  induction p generalizing d c with
  | ret a => exact hQ a d c h
  | call a k ih =>
    intro c' hc
    obtain ⟨hf, hk⟩ := h c' hc
    refine ⟨hf, fun x w hx => ?_⟩
    obtain ⟨d', s, ht, hi, hg, hok⟩ := hk x w hx
    exact ⟨d', s, ht, hi, hg, ih x hok⟩

/-- The rule for an access: what is known before it must survive the accesses of the others. -/
theorem ok_call {Q : α → Option R → W × S → Prop} {a : Acc} {k : Ans a → Script Acc Ans α}
    {d : Option R} {c : W × S} (P : W × S → Prop) (hP : Stable inv guar t P) (hi : inv c)
    (h : P c) (hk : ∀ c', inv c' → P c' → O.fine t a c'.1 ∧
      ∀ x w, O.access t a x c'.1 = some w → ∃ d' s, Takes perform op d c'.2 d' s ∧
        inv (w, s) ∧ guar t c' (w, s) ∧ O.Ok perform inv guar t op Q (k x) d' (w, s)) :
    O.Ok perform inv guar t op Q (.call a k) d c := by
  intro c' hc
  have h' := hP.of_rely hc hi h
  exact hk c' h'.1 h'.2

theorem ok_look {Q : α → Option R → W × S → Prop} {a : Acc} {k : Ans a → Script Acc Ans α}
    {d : Option R} {c : W × S} (P : W × S → Prop) (hP : Stable inv guar t P)
    (hg : ∀ c, guar t c c) (hi : inv c) (h : P c)
    (hk : ∀ c', inv c' → P c' → O.fine t a c'.1 ∧
      ∀ x w, O.access t a x c'.1 = some w → w = c'.1 ∧ O.Ok perform inv guar t op Q (k x) d c') :
    O.Ok perform inv guar t op Q (.call a k) d c := by
  refine ok_call P hP hi h fun c' hi' h' => ?_
  obtain ⟨hf, hx⟩ := hk c' hi' h'
  refine ⟨hf, fun x w hw => ?_⟩
  obtain ⟨rfl, hok⟩ := hx x w hw
  exact ⟨d, c'.2, .inl ⟨rfl, rfl⟩, hi', hg c', hok⟩

theorem ok_call_bind {Q : α → Option R → W × S → Prop} {a : Acc} {f : Ans a → Script Acc Ans α}
    {d : Option R} {c : W × S} (P : W × S → Prop) (hP : Stable inv guar t P) (hi : inv c)
    (h : P c) (hk : ∀ c', inv c' → P c' → O.fine t a c'.1 ∧
      ∀ x w, O.access t a x c'.1 = some w → ∃ d' s, Takes perform op d c'.2 d' s ∧
        inv (w, s) ∧ guar t c' (w, s) ∧ O.Ok perform inv guar t op Q (f x) d' (w, s)) :
    O.Ok perform inv guar t op Q (Script.call a .ret >>= f) d c := ok_call P hP hi h hk

theorem ok_look_bind {Q : α → Option R → W × S → Prop} {a : Acc} {f : Ans a → Script Acc Ans α}
    {d : Option R} {c : W × S} (P : W × S → Prop) (hP : Stable inv guar t P)
    (hg : ∀ c, guar t c c) (hi : inv c) (h : P c)
    (hk : ∀ c', inv c' → P c' → O.fine t a c'.1 ∧
      ∀ x w, O.access t a x c'.1 = some w → w = c'.1 ∧ O.Ok perform inv guar t op Q (f x) d c') :
    O.Ok perform inv guar t op Q (Script.call a .ret >>= f) d c := ok_look P hP hg hi h hk

theorem Ok.rely {Q : α → Option R → W × S → Prop} {p : Script Acc Ans α} {d : Option R}
    {c c' : W × S} {u : T} (h : O.Ok perform inv guar t op Q p d c)
    (hQ : ∀ a d, Stable inv guar t (Q a d)) (hu : u ≠ t) (hc : inv c) (hg : guar u c c')
    (hi : inv c') : O.Ok perform inv guar t op Q p d c' := by
  cases p with
  | ret a => exact hQ a d c c' u hu hc h hg hi
  | call a k => exact fun c'' hc' => h c'' (.head ⟨u, hu, hg, hi⟩ hc')

/-! ### All calls -/

section
variable [DecidableEq T]

/-- What the calls are to be: a call that begins when its thread is `idle` is performed once, with
the result it returns, and leaves its thread idle. -/
structure Atomic (O : Object T Op R Acc Ans W) (perform : S → Op × R → S → Prop)
    (inv : W × S → Prop) (guar : T → W × S → W × S → Prop) (idle : T → W × S → Prop) : Prop where
  stable : ∀ t, Stable inv guar t (idle t)
  body : ∀ t op c, inv c → idle t c → O.admits op c.1 = true →
    O.Ok perform inv guar t op (fun r d c => d = some r ∧ idle t c) (O.body op) none c

/-- How far the call of `t` is, in the history and in the sequence of the calls performed. -/
inductive Tracks (O : Object T Op R Acc Ans W) (perform : S → Op × R → S → Prop)
    (inv : W × S → Prop) (guar : T → W × S → W × S → Prop) (idle : T → W × S → Prop) (t : T)
    (H : List (Event T Op R))
    (L : List (T × Op × R)) (c : W × S) : Option (Script Acc Ans R) → Prop
  | out : idle t c → (callsOf t L).map Prod.fst = Event.invoked t H →
      (callsOf t L).map Prod.snd = Event.returned t H → Tracks O perform inv guar idle t H L c none
  | begun {op : Op} {p : Script Acc Ans R} :
      O.Ok perform inv guar t op (fun r d c => d = some r ∧ idle t c) p none c →
      (callsOf t L).map Prod.fst ++ [op] = Event.invoked t H →
      (callsOf t L).map Prod.snd = Event.returned t H →
      Tracks O perform inv guar idle t H L c (some p)
  | performed {op : Op} {r : R} {p : Script Acc Ans R} :
      O.Ok perform inv guar t op (fun r d c => d = some r ∧ idle t c) p (some r) c →
      (callsOf t L).map Prod.fst = Event.invoked t H →
      (callsOf t L).map Prod.snd = Event.returned t H ++ [r] →
      Tracks O perform inv guar idle t H L c (some p)

structure Linked (O : Object T Op R Acc Ans W) (perform : S → Op × R → S → Prop)
    (inv : W × S → Prop) (guar : T → W × S → W × S → Prop) (idle : T → W × S → Prop) (s₀ : S)
    (s : Threads T Op R Acc Ans W) (L : List (T × Op × R)) (a : S) : Prop where
  legal : Sequence perform s₀ L a
  kept : inv (s.memory, a)
  tracks : ∀ t, Tracks O perform inv guar idle t s.history L (s.memory, a) (s.calls t)
  order : ∀ H', H' <+: s.history → ∃ L', L' <+: L ∧ Explains H' L'

variable {idle : T → W × S → Prop} {s₀ : S} {H : List (Event T Op R)} {L : List (T × Op × R)}
  {c c' : W × S}
  {s s' : Threads T Op R Acc Ans W} {a : S} {m : Option (Script Acc Ans R)}

theorem Tracks.ops (h : Tracks O perform inv guar idle t H L c m) :
    (callsOf t L).map Prod.fst <+: Event.invoked t H := by
  cases h with
  | out hid ho _ => exact ho ▸ List.prefix_rfl
  | begun _ ho _ => exact ho ▸ List.prefix_append _ _
  | performed _ ho _ => exact ho ▸ List.prefix_rfl

theorem Tracks.results (h : Tracks O perform inv guar idle t H L c m) :
    Event.returned t H <+: (callsOf t L).map Prod.snd := by
  cases h with
  | out _ _ hr => exact hr ▸ List.prefix_rfl
  | begun _ _ hr => exact hr ▸ List.prefix_rfl
  | performed _ _ hr => exact hr ▸ List.prefix_append _ _

theorem Tracks.rely {u : T} (h : Tracks O perform inv guar idle t H L c m)
    (hid : Stable inv guar t (idle t)) (hu : u ≠ t) (hc : inv c) (hg : guar u c c')
    (hi : inv c') : Tracks O perform inv guar idle t H L c' m := by
  have hQ : ∀ (r : R) (d : Option R), Stable inv guar t fun c => d = some r ∧ idle t c :=
    fun r d => (stable_const _).and hid
  cases h with
  | out hidle ho hr => exact .out (hid c c' u hu hc hidle hg hi) ho hr
  | begun hok ho hr => exact .begun (hok.rely hQ hu hc hg hi) ho hr
  | performed hok ho hr => exact .performed (hok.rely hQ hu hc hg hi) ho hr

theorem Linked.linearizes (h : Linked O perform inv guar idle s₀ s L a) :
    Linearizes perform s₀ s.history L where
  legal := ⟨a, h.legal⟩
  explains := ⟨fun t => (h.tracks t).ops, fun t => (h.tracks t).results⟩
  order := h.order

/-- The new prefix of the history is explained by all that was performed. -/
theorem order_concat {e : Event T Op R} (h : ∀ H', H' <+: H → ∃ L', L' <+: L ∧ Explains H' L')
    (he : Explains (H ++ [e]) L) :
    ∀ H', H' <+: H ++ [e] → ∃ L', L' <+: L ∧ Explains H' L' := by
  intro H' hH
  rcases List.prefix_concat_iff.mp hH with rfl | hH
  · exact ⟨L, List.prefix_rfl, he⟩
  · exact h H' hH

theorem Tracks.congr {H' : List (Event T Op R)} {L' : List (T × Op × R)}
    (h : Tracks O perform inv guar idle t H L c m) (hL : callsOf t L' = callsOf t L)
    (hi : Event.invoked t H' = Event.invoked t H)
    (hr : Event.returned t H' = Event.returned t H) :
    Tracks O perform inv guar idle t H' L' c m := by
  cases h with
  | out hid ho hres => exact .out hid (by rw [hL, hi, ho]) (by rw [hL, hr, hres])
  | begun hok ho hres => exact .begun hok (by rw [hL, hi, ho]) (by rw [hL, hr, hres])
  | performed hok ho hres => exact .performed hok (by rw [hL, hi, ho]) (by rw [hL, hr, hres])

theorem tracks_update {H' : List (Event T Op R)} {calls : T → Option (Script Acc Ans R)}
    (ht : Tracks O perform inv guar idle t H' L c m)
    (hu : ∀ u, u ≠ t → Tracks O perform inv guar idle u H' L c (calls u)) :
    ∀ u, Tracks O perform inv guar idle u H' L c (Function.update calls t m u) := by
  intro u
  by_cases h : u = t
  · subst h
    rw [Function.update_self]
    exact ht
  · rw [Function.update_of_ne h]
    exact hu u h

theorem Linked.idle_of_none (h : Linked O perform inv guar idle s₀ s L a)
    (ht : s.calls t = none) : idle t (s.memory, a) := by
  have hout := h.tracks t
  rw [ht] at hout
  cases hout with
  | out hid _ _ => exact hid

theorem Linked.invoke (h : Linked O perform inv guar idle s₀ s L a) (ht : s.calls t = none)
    (hok : O.Ok perform inv guar t op (fun r d c => d = some r ∧ idle t c) (O.body op) none
      (s.memory, a)) :
    Linked O perform inv guar idle s₀
      ⟨s.memory, Function.update s.calls t (some (O.body op)), s.history ++ [.invoke t op]⟩
      L a := by
  have htracks : ∀ u, Tracks O perform inv guar idle u (s.history ++ [.invoke t op]) L (s.memory, a)
      (Function.update s.calls t (some (O.body op)) u) := by
    refine tracks_update ?_ fun u hu => ?_
    · have hout := h.tracks t
      rw [ht] at hout
      cases hout with
      | out hid ho hr =>
        exact .begun hok (by rw [Event.invoked_invoke, if_pos rfl, ho])
          (by rw [Event.returned_invoke, hr])
    · refine (h.tracks u).congr rfl ?_ (Event.returned_invoke ..)
      rw [Event.invoked_invoke, if_neg (Ne.symm hu), List.append_nil]
  exact ⟨h.legal, h.kept, htracks,
    order_concat h.order ⟨fun u => (htracks u).ops, fun u => (htracks u).results⟩⟩

theorem Linked.ret {r : R} (h : Linked O perform inv guar idle s₀ s L a)
    (ht : s.calls t = some (.ret r)) : Linked O perform inv guar idle s₀
      ⟨s.memory, Function.update s.calls t none, s.history ++ [.ret t r]⟩ L a := by
  have htracks : ∀ u, Tracks O perform inv guar idle u (s.history ++ [.ret t r]) L (s.memory, a)
      (Function.update s.calls t none u) := by
    refine tracks_update ?_ fun u hu => ?_
    · have hin := h.tracks t
      rw [ht] at hin
      cases hin with
      | begun hok _ _ => exact absurd hok (by simp [Ok])
      | performed hok ho hr =>
        obtain ⟨hd, hid⟩ := hok
        obtain rfl := Option.some.inj hd
        exact .out hid (by rw [Event.invoked_ret, ho]) (by rw [Event.returned_ret, if_pos rfl, hr])
    · refine (h.tracks u).congr rfl (Event.invoked_ret ..) ?_
      rw [Event.returned_ret, if_neg (Ne.symm hu), List.append_nil]
  exact ⟨h.legal, h.kept, htracks,
    order_concat h.order ⟨fun u => (htracks u).ops, fun u => (htracks u).results⟩⟩

theorem Linked.access (hstable : ∀ t, Stable inv guar t (idle t)) {x : Acc}
    {k : Ans x → Script Acc Ans R} {y : Ans x} {w : W}
    (h : Linked O perform inv guar idle s₀ s L a) (ht : s.calls t = some (.call x k))
    (hx : O.access t x y s.memory = some w) : ∃ L' a', Linked O perform inv guar idle s₀
      ⟨w, Function.update s.calls t (some (k y)), s.history⟩ L' a' := by
  have hothers : ∀ (u : T) (L' : List (T × Op × R)) (a' : S), u ≠ t →
      callsOf u L' = callsOf u L → inv (w, a') → guar t (s.memory, a) (w, a') →
      Tracks O perform inv guar idle u s.history L' (w, a') (s.calls u) :=
    fun u L' a' hu hL hi hg =>
      ((h.tracks u).rely (hstable u) (Ne.symm hu) h.kept hg hi).congr hL rfl rfl
  have hin := h.tracks t
  rw [ht] at hin
  cases hin with
  | @begun op p hok ho hr =>
    obtain ⟨d', a', htakes, hi, hg, hok⟩ := (hok _ .refl).2 y w hx
    rcases htakes with ⟨rfl, ha⟩ | ⟨-, r, rfl, hperform⟩
    · rw [ha] at hi hg hok
      exact ⟨L, a, h.legal, hi, tracks_update (.begun hok ho hr)
        fun u hu => hothers u L a hu rfl hi hg, h.order⟩
    · refine ⟨L ++ [(t, op, r)], a', h.legal.concat hperform, hi, tracks_update ?_ fun u hu => ?_,
        fun H' hH => ?_⟩
      · exact .performed hok (by rw [callsOf_concat, if_pos rfl, List.map_append]; exact ho)
          (by rw [callsOf_concat, if_pos rfl, List.map_append, hr]; rfl)
      · exact hothers u _ a' hu (by rw [callsOf_concat, if_neg (Ne.symm hu), List.append_nil]) hi hg
      · obtain ⟨L', hL, he⟩ := h.order H' hH
        exact ⟨L', hL.trans (List.prefix_append _ _), he⟩
  | @performed op r p hok ho hr =>
    obtain ⟨d', a', htakes, hi, hg, hok⟩ := (hok _ .refl).2 y w hx
    rcases htakes with ⟨rfl, ha⟩ | ⟨hd, -⟩
    · rw [ha] at hi hg hok
      exact ⟨L, a, h.legal, hi, tracks_update (.performed hok ho hr)
        fun u hu => hothers u L a hu rfl hi hg, h.order⟩
    · cases hd

variable [DecidableEq Acc]

theorem Linked.step (hO : Atomic O perform inv guar idle)
    (h : Linked O perform inv guar idle s₀ s L a) {x : Act T Op Acc Ans}
    (hs : O.step x s = some s') :
    ∃ L' a', Linked O perform inv guar idle s₀ s' L' a' := by
  cases x with
  | invoke t op =>
    simp only [Object.step] at hs
    split at hs
    · rename_i ht
      split at hs
      · rename_i had
        cases hs
        exact ⟨L, a, h.invoke ht (hO.body t op _ h.kept (h.idle_of_none ht) had)⟩
      · cases hs
    · cases hs
  | access t x y =>
    simp only [Object.step] at hs
    split at hs
    · rename_i x' k ht
      split at hs
      · rename_i hx
        subst hx
        obtain ⟨w, hw, rfl⟩ := Option.map_eq_some_iff.mp hs
        exact h.access hO.stable ht hw
      · cases hs
    · cases hs
    · cases hs
  | retry t =>
    simp only [Object.step] at hs
    split at hs
    · cases hs
      exact ⟨L, a, h⟩
    · cases hs
  | ret t =>
    simp only [Object.step] at hs
    split at hs
    · rename_i r ht
      cases hs
      exact ⟨L, a, h.ret ht⟩
    · cases hs
    · cases hs

/-- When every call is right by itself, every run is linearizable, and no access is undefined. -/
theorem linearizable {w₀ : W} (hO : Atomic O perform inv guar idle) (hinv : inv (w₀, s₀))
    (hidle : ∀ t, idle t (w₀, s₀)) (h : Run O.Steps ⟨w₀, fun _ => none, []⟩ s) :
    (∃ L, Linearizes perform s₀ s.history L) ∧
      ∀ t x k, s.calls t = some (.call x k) → O.fine t x s.memory := by
  have hstart : Linked O perform inv guar idle s₀ ⟨w₀, fun _ => none, []⟩ [] s₀ := by
    refine ⟨rfl, hinv, fun t => .out (hidle t) rfl rfl, fun H' hH => ⟨[], List.prefix_rfl, ?_⟩⟩
    obtain rfl := List.prefix_nil.mp hH
    exact ⟨fun t => List.prefix_rfl, fun t => List.prefix_rfl⟩
  have hlinked : ∃ L a, Linked O perform inv guar idle s₀ s L a := by
    refine h.invariant (fun s => ∃ L a, Linked O perform inv guar idle s₀ s L a)
      ⟨[], s₀, hstart⟩ ?_
    rintro u x v ⟨L, a, hu⟩ - hv
    exact hu.step hO hv
  obtain ⟨L, a, hl⟩ := hlinked
  refine ⟨⟨L, hl.linearizes⟩, fun t x k ht => ?_⟩
  have htracks := hl.tracks t
  rw [ht] at htracks
  cases htracks with
  | begun hok _ _ => exact (hok _ .refl).1
  | performed hok _ _ => exact (hok _ .refl).1

end

end Object

end Omulator.Lib
