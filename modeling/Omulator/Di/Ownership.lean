import Omulator.Di.Session

/-!
# What the type maps own

Which objects the type maps own, where the references that `get` gives lead to, and in which
order `invocationList_` names the owned ones: the invariant that every step of an injection
keeps. It is stated on the trace, which also remembers what injectors that are gone owned.
-/

namespace Omulator.Di
open Omulator.Lib Comp

def Dead (w : World) (i : ℕ) : Prop := .destroyed (.injector i) ∈ w.trace

/-- The type map of `i` has taken ownership of `a`, under the type `T`. -/
def Manages (w : World) (i : ℕ) (T : Hash_t) (a : Addr) : Prop := .managed i T a ∈ w.trace

/-- `d` is `i` or an ancestor, or is managed by one of them. -/
def Home (w : World) (i : ℕ) (d : Addr) : Prop :=
  (∃ k, d = .injector k ∧ Anc w k i) ∨ ∃ j K, Anc w j i ∧ Manages w j K d

/-- The same, and if `i` itself manages `d`, then under one of the types `pre`. -/
def Before (w : World) (i : ℕ) (pre : List Hash_t) (d : Addr) : Prop :=
  (∃ k, d = .injector k ∧ Anc w k i) ∨ (∃ K ∈ pre, Manages w i K d) ∨
  ∃ j K, Anc w j i ∧ j ≠ i ∧ Manages w j K d

/-- A `get` issued in the course of the recipe that returned `a` gave `d`. -/
def ConstructedWith (tr : List Event) (a d : Addr) : Prop :=
  ∃ t₁ t₂ t₃ T asked given j U,
    tr = (t₁ ++ .recipe T asked given :: t₂) ++ .recipeEnd t₁.length (some a) :: t₃ ∧
      .got j U (some d) ∈ t₂

/-- A recipe that returns an object that it has allocated, or that was created for it and that
it has not passed on; `S` are those it has by now. -/
def Prog.Fresh : Prog → Finset ℕ → Prop
  | .new, _ | .throw _, _ => True
  | .ret p, S => ∃ n ∈ S, p = some (.obj n)
  | .get _ k, S => ∀ r, (k r).Fresh S
  | .creat _ k, S => ∀ r, (k r).Fresh (match r with | .ok (some (.obj n)) => insert n S | _ => S)

/-- The invariant. What concerns the type map and the list of an injector is claimed until
the injector is destroyed. -/
structure Inv (ty : Types) (w : World) : Prop where
  wf : w.WF
  dead : ∀ i, Dead w i → i < w.count
  parents : ∀ i p, i < w.count → ¬ Dead w i → (w.inj i).pUpstream_ = some p → ¬ Dead w p
  fresh : ∀ i T body, i < w.count → (w.inj i).recipeMap_.lookup T = some (.fn body) →
    ∀ m, (body m).Fresh ∅
  child : ∀ i T, i < w.count → (w.inj i).recipeMap_.lookup T = some .child → T = injectorHash
  self : ∀ i, i < w.count → ¬ Dead w i →
    (w.inj i).typeMap_.lookup injectorHash = some ⟨some (.injector i), false⟩
  home : ∀ i T c d, i < w.count → ¬ Dead w i → (w.inj i).typeMap_.lookup T = some c →
    c.ptr_ = some d → Home w i d
  managed : ∀ i T a, Manages w i T a →
    i < w.count ∧ ty.is_abstract T = false ∧ ∃ n < w.fresh, a = .obj n
  owned : ∀ i T a, i < w.count → ¬ Dead w i →
    (Manages w i T a ↔ (w.inj i).typeMap_.lookup T = some ⟨some a, true⟩)
  unique : ∀ i j T U a, Manages w i T a → Manages w j U a → i = j ∧ T = U
  alive : ∀ i T a, Manages w i T a → ¬ Dead w i → w.trace.count (.destroyed a) = 0
  once : ∀ i T a, Manages w i T a → Dead w i → w.trace.count (.destroyed a) = 1
  listed : ∀ i T a, Manages w i T a → ¬ Dead w i → ∃ pre post,
    (w.inj i).invocationList_ = pre ++ T :: post ∧ T ∉ pre ∧ T ∉ post ∧
      ∀ d, ConstructedWith w.trace a d → Before w i pre d
  entry : ∀ i T, i < w.count → ¬ Dead w i → T ∈ (w.inj i).invocationList_ →
    ty.is_abstract T = false → ∃ c, (w.inj i).typeMap_.lookup T = some c
  order : ∀ i T a d, Manages w i T a → ConstructedWith w.trace a d →
    ∀ p q, w.trace = p ++ .destroyed d :: q → .destroyed a ∈ p
  bound : ∀ n, (∃ st, .recipeEnd st (some (.obj n)) ∈ w.trace) ∨ .destroyed (.obj n) ∈ w.trace →
    n < w.fresh

/-! ### Traces -/

section
variable {tr seg : List Event} {a d : Addr}

theorem ConstructedWith.append (h : ConstructedWith tr a d) (seg : List Event) :
    ConstructedWith (tr ++ seg) a d := by
  obtain ⟨t₁, t₂, t₃, T, asked, given, j, U, ht, hg⟩ := h
  exact ⟨t₁, t₂, t₃ ++ seg, T, asked, given, j, U, by rw [ht]; simp, hg⟩

theorem ConstructedWith.of_append (h : ConstructedWith (tr ++ seg) a d)
    (hseg : ∀ st, .recipeEnd st (some a) ∉ seg) : ConstructedWith tr a d := by
  obtain ⟨t₁, t₂, t₃, T, asked, given, j, U, ht, hg⟩ := h
  rcases List.append_eq_append_iff.mp ht with ⟨x, hx, hx'⟩ | ⟨x, hx, hx'⟩
  · cases x with
    | nil =>
      have hend : Event.recipeEnd t₁.length (some a) ∈ seg := by
        rw [List.nil_append] at hx'
        rw [hx']
        exact List.mem_cons_self ..
      exact absurd hend (hseg _)
    | cons e x =>
      have hend : Event.recipeEnd t₁.length (some a) ∈ seg := by
        rw [hx']
        simp
      exact absurd hend (hseg _)
  · cases x with
    | nil =>
      rw [List.nil_append] at hx'
      have hend : Event.recipeEnd t₁.length (some a) ∈ seg := by
        rw [← hx']
        exact List.mem_cons_self ..
      exact absurd hend (hseg _)
    | cons e x =>
      rw [List.cons_append, List.cons.injEq] at hx'
      obtain ⟨he, ht₃⟩ := hx'
      exact ⟨t₁, t₂, x, T, asked, given, j, U, by rw [hx, ← he], hg⟩

/-- When no recipe has returned `a` before `seg`, what it was constructed with was given in
`seg`, provided that the recipes that end in `seg` also began there. -/
theorem ConstructedWith.mem_seg (h : ConstructedWith (tr ++ seg) a d)
    (htr : ∀ st, .recipeEnd st (some a) ∉ tr)
    (hseg : ∀ st p, .recipeEnd st p ∈ seg → tr.length ≤ st) :
    ∃ j U, .got j U (some d) ∈ seg := by
  obtain ⟨t₁, t₂, t₃, T, asked, given, j, U, ht, hg⟩ := h
  have hend : Event.recipeEnd t₁.length (some a) ∈ tr ++ seg := by
    rw [ht]
    simp
  have hmem : Event.recipeEnd t₁.length (some a) ∈ seg :=
    (List.mem_append.mp hend).resolve_left (htr _)
  have hlen := hseg _ _ hmem
  rw [List.append_assoc] at ht
  rcases List.append_eq_append_iff.mp ht with ⟨x, hx, hx'⟩ | ⟨x, hx, hx'⟩
  · refine ⟨j, U, ?_⟩
    rw [hx']
    simp [hg]
  · have hx0 : x = [] := by
      have hl := congrArg List.length hx
      rw [List.length_append] at hl
      exact List.length_eq_zero_iff.mp (by omega)
    subst hx0
    rw [List.nil_append] at hx'
    refine ⟨j, U, ?_⟩
    rw [← hx']
    simp [hg]

theorem split_append {p q : List Event} {e : Event} (h : tr ++ seg = p ++ e :: q) :
    (∃ q', tr = p ++ e :: q') ∨ ∃ p', p = tr ++ p' ∧ seg = p' ++ e :: q := by
  rcases List.append_eq_append_iff.mp h with ⟨x, hx, hx'⟩ | ⟨x, hx, hx'⟩
  · exact Or.inr ⟨x, hx, hx'⟩
  · cases x with
    | nil =>
      rw [List.nil_append] at hx'
      rw [List.append_nil] at hx
      exact Or.inr ⟨[], by rw [hx, List.append_nil], by rw [← hx', List.nil_append]⟩
    | cons e' x =>
      rw [List.cons_append, List.cons.injEq] at hx'
      exact Or.inl ⟨x, by rw [hx, ← hx'.1]⟩

end

/-! ### Steps that take ownership of nothing -/

/-- From `w` to `w'` the trace has grown by `seg`, and entries that own nothing may have been
added to type maps, and recipes to the others. -/
structure Mute (w w' : World) (seg : List Event) : Prop where
  count : w'.count = w.count
  fresh : w.fresh ≤ w'.fresh
  trace : w'.trace = w.trace ++ seg
  recipes : ∀ j T r, (w'.inj j).recipeMap_.lookup T = some r →
    (w.inj j).recipeMap_.lookup T = some r ∨ (∃ impl, r = .bind impl) ∨
      ∃ body, r = .fn body ∧ ∀ m, (body m).Fresh ∅
  upstream : ∀ j, (w'.inj j).pUpstream_ = (w.inj j).pUpstream_
  list : ∀ j, (w'.inj j).invocationList_ = (w.inj j).invocationList_
  keep : ∀ j T c, (w.inj j).typeMap_.lookup T = some c → (w'.inj j).typeMap_.lookup T = some c
  new : ∀ j T c, (w'.inj j).typeMap_.lookup T = some c → (w.inj j).typeMap_.lookup T = some c ∨
    (∀ a, c ≠ ⟨some a, true⟩) ∧ ∀ d, c.ptr_ = some d → Home w j d
  managed : ∀ j T a, .managed j T a ∉ seg
  destroyed : ∀ a, .destroyed a ∈ seg → ∃ n < w'.fresh, a = .obj n ∧ ∀ j T, ¬ Manages w j T a
  ends : ∀ st n, .recipeEnd st (some (.obj n)) ∈ seg →
    n < w'.fresh ∧ ∀ j T, ¬ Manages w j T (.obj n)

theorem anc_of_upstream {w w' : World} (hup : ∀ j, (w'.inj j).pUpstream_ = (w.inj j).pUpstream_)
    {i j : ℕ} (h : Anc w j i) : Anc w' j i := by
  induction h with
  | self => exact .self _
  | up hp _ ih => exact .up ((hup _).trans hp) ih

section
variable {ty : Types} {w w' : World} {seg : List Event} {i : ℕ} {d : Addr} {T : Hash_t}

theorem manages_append (ht : w'.trace = w.trace ++ seg) {a : Addr} (h : Manages w i T a) :
    Manages w' i T a := by
  unfold Manages at h ⊢
  rw [ht]
  exact List.mem_append_left _ h

theorem Home.append (h : Home w i d) (ht : w'.trace = w.trace ++ seg)
    (hanc : ∀ k, Anc w k i → Anc w' k i) : Home w' i d := by
  rcases h with ⟨k, hd, ha⟩ | ⟨j, K, ha, hm⟩
  · exact Or.inl ⟨k, hd, hanc k ha⟩
  · exact Or.inr ⟨j, K, hanc j ha, manages_append ht hm⟩

theorem Before.append {pre : List Hash_t} (h : Before w i pre d)
    (ht : w'.trace = w.trace ++ seg) (hanc : ∀ k, Anc w k i → Anc w' k i) :
    Before w' i pre d := by
  rcases h with ⟨k, hd, ha⟩ | ⟨K, hK, hm⟩ | ⟨j, K, ha, hne, hm⟩
  · exact Or.inl ⟨k, hd, hanc k ha⟩
  · exact Or.inr (Or.inl ⟨K, hK, manages_append ht hm⟩)
  · exact Or.inr (Or.inr ⟨j, K, hanc j ha, hne, manages_append ht hm⟩)

theorem Home.up {j : ℕ} (h : Home w j d) (hj : Anc w j i) : Home w i d := by
  rcases h with ⟨k, hd, ha⟩ | ⟨k, K, ha, hm⟩
  · exact Or.inl ⟨k, hd, ha.trans hj⟩
  · exact Or.inr ⟨k, K, ha.trans hj, hm⟩

namespace Mute

theorem dead_iff (h : Mute w w' seg) (i : ℕ) : Dead w' i ↔ Dead w i := by
  unfold Dead
  rw [h.trace, List.mem_append]
  constructor
  · rintro (hd | hd)
    · exact hd
    · obtain ⟨n, _, hn, _⟩ := h.destroyed _ hd
      cases hn
  · exact Or.inl

theorem live (h : Mute w w' seg) (hd : ¬ Dead w' i) : ¬ Dead w i := fun hd' =>
  hd ((h.dead_iff i).mpr hd')

theorem manages_iff (h : Mute w w' seg) (i : ℕ) (T : Hash_t) (a : Addr) :
    Manages w' i T a ↔ Manages w i T a := by
  unfold Manages
  rw [h.trace, List.mem_append]
  exact or_iff_left (h.managed i T a)

theorem count_destroyed (h : Mute w w' seg) {a : Addr} (ha : Manages w i T a) :
    w'.trace.count (.destroyed a) = w.trace.count (.destroyed a) := by
  rw [h.trace, List.count_append]
  have hno : .destroyed a ∉ seg := by
    intro hd
    obtain ⟨n, _, _, hnot⟩ := h.destroyed _ hd
    exact hnot i T ha
  rw [List.count_eq_zero.mpr hno, Nat.add_zero]

theorem constructed (h : Mute w w' seg) (hinv : Inv ty w) {a : Addr} (ha : Manages w i T a)
    (hc : ConstructedWith w'.trace a d) : ConstructedWith w.trace a d := by
  rw [h.trace] at hc
  refine hc.of_append fun st hst => ?_
  obtain ⟨_, _, n, _, rfl⟩ := hinv.managed i T a ha
  exact (h.ends st n hst).2 i T ha

end Mute

theorem Before.known {pre : List Hash_t} (hb : Before w i pre d) :
    (∃ k, d = .injector k) ∨ ∃ j K, Manages w j K d := by
  rcases hb with ⟨k, hd, _⟩ | ⟨K, _, hm⟩ | ⟨j, K, _, _, hm⟩
  · exact Or.inl ⟨k, hd⟩
  · exact Or.inr ⟨i, K, hm⟩
  · exact Or.inr ⟨j, K, hm⟩

theorem Inv.mute (h : Inv ty w) (hm : Mute w w' seg) : Inv ty w' where
  wf j p hj hp := h.wf j p (hm.count ▸ hj) (hm.upstream j ▸ hp)
  dead j hj := hm.count ▸ h.dead j ((hm.dead_iff j).mp hj)
  parents j p hj hd hp hdp :=
    h.parents j p (hm.count ▸ hj) (hm.live hd)
    (hm.upstream j ▸ hp) ((hm.dead_iff p).mp hdp)
  fresh j T body hj hl := by
    rcases hm.recipes j T _ hl with hl | ⟨impl, hr⟩ | ⟨body', hr, hb⟩
    · exact h.fresh j T body (hm.count ▸ hj) hl
    · cases hr
    · cases hr
      exact hb
  child j T hj hl := by
    rcases hm.recipes j T _ hl with hl | ⟨impl, hr⟩ | ⟨body', hr, hb⟩
    · exact h.child j T (hm.count ▸ hj) hl
    · cases hr
    · cases hr
  self j hj hd := hm.keep j _ _ (h.self j (hm.count ▸ hj) (hm.live hd))
  home j T c d hj hd hl hp := by
    have hw : Home w j d := by
      rcases hm.new j T c hl with hl | ⟨_, hh⟩
      · exact h.home j T c d (hm.count ▸ hj) (hm.live hd) hl hp
      · exact hh d hp
    exact hw.append hm.trace fun k => anc_of_upstream hm.upstream
  managed j T a ha := by
    obtain ⟨hj, hab, n, hn, he⟩ := h.managed j T a ((hm.manages_iff j T a).mp ha)
    exact ⟨hm.count ▸ hj, hab, n, Nat.lt_of_lt_of_le hn hm.fresh, he⟩
  owned j T a hj hd := by
    rw [hm.manages_iff, h.owned j T a (hm.count ▸ hj) (hm.live hd)]
    constructor
    · exact hm.keep j T _
    · intro hl
      exact (hm.new j T _ hl).resolve_right fun hn => hn.1 a rfl
  unique j k T U a h₁ h₂ :=
    h.unique j k T U a ((hm.manages_iff j T a).mp h₁) ((hm.manages_iff k U a).mp h₂)
  alive j T a ha hd := by
    have ha' := (hm.manages_iff j T a).mp ha
    rw [hm.count_destroyed ha']
    exact h.alive j T a ha' (hm.live hd)
  once j T a ha hd := by
    have ha' := (hm.manages_iff j T a).mp ha
    rw [hm.count_destroyed ha']
    exact h.once j T a ha' ((hm.dead_iff j).mp hd)
  listed j T a ha hd := by
    have ha' := (hm.manages_iff j T a).mp ha
    obtain ⟨pre, post, hl, hpre, hpost, hb⟩ :=
      h.listed j T a ha' (hm.live hd)
    refine ⟨pre, post, (hm.list j).trans hl, hpre, hpost, fun d hc => ?_⟩
    exact (hb d (hm.constructed h ha' hc)).append hm.trace fun k => anc_of_upstream hm.upstream
  entry j T hj hd hT hab := by
    obtain ⟨c, hc⟩ := h.entry j T (hm.count ▸ hj) (hm.live hd) (hm.list j ▸ hT) hab
    exact ⟨c, hm.keep j T c hc⟩
  order j T a d ha hc p q hs := by
    have ha' := (hm.manages_iff j T a).mp ha
    have hc' := hm.constructed h ha' hc
    rw [hm.trace] at hs
    rcases split_append hs with ⟨q', hq⟩ | ⟨p', rfl, hp'⟩
    · exact h.order j T a d ha' hc' p q' hq
    · -- `d` dies now, so it is not managed, and the owner of `a` is dead already
      have hdm : .destroyed d ∈ seg := by
        rw [hp']
        simp
      obtain ⟨n, _, rfl, hnot⟩ := hm.destroyed _ hdm
      by_cases hdead : Dead w j
      · have hone := h.once j T a ha' hdead
        exact List.mem_append_left _ (List.count_pos_iff.mp (by omega))
      · obtain ⟨pre, _, _, _, _, hb⟩ := h.listed j T a ha' hdead
        rcases (hb _ hc').known with ⟨k, hk⟩ | ⟨k, K, hk⟩
        · cases hk
        · exact absurd hk (hnot k K)
  bound n hn := by
    rw [hm.trace] at hn
    rcases hn with ⟨st, hst⟩ | hd
    · rcases List.mem_append.mp hst with hst | hst
      · exact Nat.lt_of_lt_of_le (h.bound n (Or.inl ⟨st, hst⟩)) hm.fresh
      · exact (hm.ends st n hst).1
    · rcases List.mem_append.mp hd with hd | hd
      · exact Nat.lt_of_lt_of_le (h.bound n (Or.inr hd)) hm.fresh
      · obtain ⟨m, hm', he, _⟩ := hm.destroyed _ hd
        cases he
        exact hm'

theorem Inv.anc_alive (h : Inv ty w) (hi : i < w.count) (hd : ¬ Dead w i) {j : ℕ}
    (ha : Anc w j i) : j < w.count ∧ ¬ Dead w j := by
  induction ha with
  | self => exact ⟨hi, hd⟩
  | @up i j p hp _ ih =>
    have hlt := h.wf i p hi hp
    exact ih (by omega) (h.parents i p hi hd hp)

theorem Inv.home_alive (h : Inv ty w) (hi : i < w.count) (hd : ¬ Dead w i) (hh : Home w i d) :
    .destroyed d ∉ w.trace := by
  rcases hh with ⟨k, rfl, ha⟩ | ⟨j, K, ha, hm⟩
  · exact (h.anc_alive hi hd ha).2
  · have hz := h.alive j K d hm (h.anc_alive hi hd ha).2
    exact List.count_eq_zero.mp hz

/-- A type that a living injector manages stands on its list. -/
theorem Inv.before_of_home (h : Inv ty w) (hd : ¬ Dead w i) (hh : Home w i d) :
    Before w i (w.inj i).invocationList_ d := by
  rcases hh with ⟨k, hk, ha⟩ | ⟨j, K, ha, hm⟩
  · exact Or.inl ⟨k, hk, ha⟩
  · by_cases hj : j = i
    · subst hj
      obtain ⟨pre, post, hl, _⟩ := h.listed j K d hm hd
      exact Or.inr (Or.inl ⟨K, by rw [hl]; simp, hm⟩)
    · exact Or.inr (Or.inr ⟨j, K, ha, hj, hm⟩)

/-! ### Taking ownership -/

/-- From `w` to `w'` the type map of `i` has taken `a`, and `T` has been put on the list. -/
structure Takes (i : ℕ) (T : Hash_t) (a : Addr) (w w' : World) : Prop where
  count : w'.count = w.count
  fresh : w'.fresh = w.fresh
  trace : w'.trace = w.trace ++ [.managed i T a]
  recipes : ∀ j, (w'.inj j).recipeMap_ = (w.inj j).recipeMap_
  upstream : ∀ j, (w'.inj j).pUpstream_ = (w.inj j).pUpstream_
  list : ∀ j, j ≠ i → (w'.inj j).invocationList_ = (w.inj j).invocationList_
  listed : (w'.inj i).invocationList_ = (w.inj i).invocationList_ ++ [T]
  others : ∀ j U, j ≠ i ∨ U ≠ T → (w'.inj j).typeMap_.lookup U = (w.inj j).typeMap_.lookup U
  entry : (w'.inj i).typeMap_.lookup T = some ⟨some a, true⟩

namespace Takes
variable {a : Addr}

theorem dead_iff (h : Takes i T a w w') (j : ℕ) : Dead w' j ↔ Dead w j := by
  unfold Dead
  rw [h.trace, List.mem_append]
  simp

theorem live (h : Takes i T a w w') {j : ℕ} (hd : ¬ Dead w' j) : ¬ Dead w j := fun hd' =>
  hd ((h.dead_iff j).mpr hd')

theorem manages_iff (h : Takes i T a w w') (j : ℕ) (U : Hash_t) (b : Addr) :
    Manages w' j U b ↔ Manages w j U b ∨ j = i ∧ U = T ∧ b = a := by
  unfold Manages
  rw [h.trace, List.mem_append]
  simp

theorem made_or_kept (h : Takes i T a w w') (j : ℕ) (U : Hash_t) :
    (j = i ∧ U = T) ∨ (¬ (j = i ∧ U = T) ∧
      (w'.inj j).typeMap_.lookup U = (w.inj j).typeMap_.lookup U) := by
  by_cases hhere : j = i ∧ U = T
  · exact .inl hhere
  · exact .inr ⟨hhere, h.others j U (not_and_or.mp hhere)⟩

theorem count_destroyed (h : Takes i T a w w') (b : Addr) :
    w'.trace.count (.destroyed b) = w.trace.count (.destroyed b) := by
  rw [h.trace, List.count_append, Nat.add_eq_left]
  exact List.count_eq_zero.mpr (by simp)

theorem constructed (h : Takes i T a w w') {b : Addr} (hc : ConstructedWith w'.trace b d) :
    ConstructedWith w.trace b d := by
  rw [h.trace] at hc
  exact hc.of_append (by simp)

end Takes

theorem Inv.takes {a : Addr} (h : Inv ty w) (hi : i < w.count) (hdi : ¬ Dead w i)
    (hnone : (w.inj i).typeMap_.lookup T = none) (hab : ty.is_abstract T = false)
    (ha : ∃ n < w.fresh, a = .obj n) (hleft : .destroyed a ∉ w.trace)
    (hfree : ∀ j U, ¬ Manages w j U a) (hc : ∀ d, ConstructedWith w.trace a d → Home w i d)
    (ht : Takes i T a w w') : Inv ty w' where
  wf j p hj hp := h.wf j p (ht.count ▸ hj) (ht.upstream j ▸ hp)
  dead j hj := ht.count ▸ h.dead j ((ht.dead_iff j).mp hj)
  parents j p hj hd hp hdp :=
    h.parents j p (ht.count ▸ hj) (ht.live hd)
    (ht.upstream j ▸ hp) ((ht.dead_iff p).mp hdp)
  fresh j U body hj hl := h.fresh j U body (ht.count ▸ hj) (ht.recipes j ▸ hl)
  child j U hj hl := h.child j U (ht.count ▸ hj) (ht.recipes j ▸ hl)
  self j hj hd := by
    have hs := h.self j (ht.count ▸ hj) (ht.live hd)
    rcases ht.made_or_kept j injectorHash with ⟨rfl, rfl⟩ | ⟨_, hkept⟩
    · rw [hs] at hnone
      cases hnone
    · rw [hkept]
      exact hs
  home j U c d hj hd hl hp := by
    rcases ht.made_or_kept j U with ⟨rfl, rfl⟩ | ⟨_, hkept⟩
    · rw [ht.entry] at hl
      cases hl
      cases hp
      exact Or.inr ⟨j, U, .self j, (ht.manages_iff j U a).mpr (Or.inr ⟨rfl, rfl, rfl⟩)⟩
    · rw [hkept] at hl
      exact (h.home j U c d (ht.count ▸ hj) (ht.live hd) hl hp).append ht.trace
        fun k => anc_of_upstream ht.upstream
  managed j U b hb := by
    rcases (ht.manages_iff j U b).mp hb with hb | ⟨rfl, rfl, rfl⟩
    · rw [ht.count, ht.fresh]
      exact h.managed j U b hb
    · rw [ht.count, ht.fresh]
      exact ⟨hi, hab, ha⟩
  owned j U b hj hd := by
    rw [ht.manages_iff, h.owned j U b (ht.count ▸ hj) (ht.live hd)]
    rcases ht.made_or_kept j U with ⟨rfl, rfl⟩ | ⟨hother, hkept⟩
    · rw [ht.entry, hnone]
      simp [eq_comm]
    · rw [hkept]
      exact or_iff_left fun ⟨hji, hUT, _⟩ => hother ⟨hji, hUT⟩
  unique j k U V b h₁ h₂ := by
    rcases (ht.manages_iff j U b).mp h₁ with h₁ | ⟨rfl, rfl, rfl⟩
    · rcases (ht.manages_iff k V b).mp h₂ with h₂ | ⟨_, _, rfl⟩
      · exact h.unique j k U V b h₁ h₂
      · exact absurd h₁ (hfree j U)
    · rcases (ht.manages_iff k V b).mp h₂ with h₂ | ⟨rfl, rfl, _⟩
      · exact absurd h₂ (hfree k V)
      · exact ⟨rfl, rfl⟩
  alive j U b hb hd := by
    rw [ht.count_destroyed]
    rcases (ht.manages_iff j U b).mp hb with hb | ⟨rfl, rfl, rfl⟩
    · exact h.alive j U b hb (ht.live hd)
    · exact List.count_eq_zero.mpr hleft
  once j U b hb hd := by
    rw [ht.count_destroyed]
    rcases (ht.manages_iff j U b).mp hb with hb | ⟨rfl, rfl, rfl⟩
    · exact h.once j U b hb ((ht.dead_iff j).mp hd)
    · exact absurd ((ht.dead_iff j).mp hd) hdi
  listed j U b hb hd := by
    rcases (ht.manages_iff j U b).mp hb with hb | ⟨rfl, rfl, rfl⟩
    · obtain ⟨pre, post, hl, hpre, hpost, hbef⟩ := h.listed j U b hb (ht.live hd)
      have hbef' : ∀ d, ConstructedWith w'.trace b d → Before w' j pre d := fun d hc =>
        (hbef d (ht.constructed hc)).append ht.trace fun k => anc_of_upstream ht.upstream
      by_cases hj : j = i
      · subst hj
        have hne : U ≠ T := by
          intro he
          subst he
          have ho := (h.owned j U b hi hdi).mp hb
          rw [hnone] at ho
          cases ho
        exact ⟨pre, post ++ [T], by rw [ht.listed, hl]; simp, hpre, by simp [hpost, hne], hbef'⟩
      · exact ⟨pre, post, (ht.list j hj).trans hl, hpre, hpost, hbef'⟩
    · have hTl : U ∉ (w.inj j).invocationList_ := by
        intro hU
        obtain ⟨c, hc⟩ := h.entry j U hi hdi hU hab
        rw [hnone] at hc
        cases hc
      refine ⟨_, [], ht.listed, hTl, by simp, fun d hcd => ?_⟩
      exact (h.before_of_home hdi (hc d (ht.constructed hcd))).append ht.trace
        fun k => anc_of_upstream ht.upstream
  entry j U hj hd hU hab' := by
    rcases ht.made_or_kept j U with ⟨rfl, rfl⟩ | ⟨hother, hkept⟩
    · exact ⟨_, ht.entry⟩
    · rw [hkept]
      by_cases hji : j = i
      · subst hji
        rw [ht.listed, List.mem_append, List.mem_singleton] at hU
        have hUl := hU.resolve_right fun hUT => hother ⟨rfl, hUT⟩
        exact h.entry j U hi hdi hUl hab'
      · rw [ht.list j hji] at hU
        exact h.entry j U (ht.count ▸ hj) (ht.live hd) hU hab'
  order j U b d hb hcd p q hs := by
    have hcd' := ht.constructed hcd
    rw [ht.trace] at hs
    have hs' : ∃ q', w.trace = p ++ .destroyed d :: q' := by
      rcases split_append hs with hq | ⟨p', _, hp'⟩
      · exact hq
      · have hm : Event.destroyed d ∈ [Event.managed i T a] := by
          rw [hp']
          simp
        simp at hm
    obtain ⟨q', hq⟩ := hs'
    rcases (ht.manages_iff j U b).mp hb with hb | ⟨rfl, rfl, rfl⟩
    · exact h.order j U b d hb hcd' p q' hq
    · have hno := h.home_alive hi hdi (hc d hcd')
      rw [hq] at hno
      simp at hno
  bound n hn := by
    rw [ht.trace] at hn
    rw [ht.fresh]
    refine h.bound n ?_
    simpa using hn

/-! ### A type is put on the list -/

structure Lists (i : ℕ) (T : Hash_t) (w w' : World) : Prop where
  count : w'.count = w.count
  fresh : w'.fresh = w.fresh
  trace : w'.trace = w.trace
  recipes : ∀ j, (w'.inj j).recipeMap_ = (w.inj j).recipeMap_
  upstream : ∀ j, (w'.inj j).pUpstream_ = (w.inj j).pUpstream_
  typeMap : ∀ j, (w'.inj j).typeMap_ = (w.inj j).typeMap_
  list : ∀ j, j ≠ i → (w'.inj j).invocationList_ = (w.inj j).invocationList_
  listed : (w'.inj i).invocationList_ = (w.inj i).invocationList_ ++ [T]

namespace Lists

theorem dead_iff (h : Lists i T w w') (j : ℕ) : Dead w' j ↔ Dead w j := by
  unfold Dead
  rw [h.trace]

theorem live (h : Lists i T w w') {j : ℕ} (hd : ¬ Dead w' j) : ¬ Dead w j := fun hd' =>
  hd ((h.dead_iff j).mpr hd')

theorem manages_iff (h : Lists i T w w') (j : ℕ) (U : Hash_t) (a : Addr) :
    Manages w' j U a ↔ Manages w j U a := by
  unfold Manages
  rw [h.trace]

theorem appended (h : Lists i T w w') : w'.trace = w.trace ++ [] := by
  rw [h.trace, List.append_nil]

end Lists

theorem Inv.lists (h : Inv ty w) (hunman : ∀ a, ¬ Manages w i T a)
    (hent : ty.is_abstract T = false → ∃ c, (w.inj i).typeMap_.lookup T = some c)
    (hl : Lists i T w w') : Inv ty w' where
  wf j p hj hp := h.wf j p (hl.count ▸ hj) (hl.upstream j ▸ hp)
  dead j hj := hl.count ▸ h.dead j ((hl.dead_iff j).mp hj)
  parents j p hj hd hp hdp :=
    h.parents j p (hl.count ▸ hj) (hl.live hd) (hl.upstream j ▸ hp) ((hl.dead_iff p).mp hdp)
  fresh j U body hj hr := h.fresh j U body (hl.count ▸ hj) (hl.recipes j ▸ hr)
  child j U hj hr := h.child j U (hl.count ▸ hj) (hl.recipes j ▸ hr)
  self j hj hd := by
    rw [hl.typeMap]
    exact h.self j (hl.count ▸ hj) (hl.live hd)
  home j U c d hj hd hc hp := by
    rw [hl.typeMap] at hc
    exact (h.home j U c d (hl.count ▸ hj) (hl.live hd) hc hp).append hl.appended
      fun k => anc_of_upstream hl.upstream
  managed j U a ha := by
    rw [hl.count, hl.fresh]
    exact h.managed j U a ((hl.manages_iff j U a).mp ha)
  owned j U a hj hd := by
    rw [hl.manages_iff, hl.typeMap]
    exact h.owned j U a (hl.count ▸ hj) (hl.live hd)
  unique j k U V a h₁ h₂ :=
    h.unique j k U V a ((hl.manages_iff j U a).mp h₁) ((hl.manages_iff k V a).mp h₂)
  alive j U a ha hd := by
    rw [hl.trace]
    exact h.alive j U a ((hl.manages_iff j U a).mp ha) (hl.live hd)
  once j U a ha hd := by
    rw [hl.trace]
    exact h.once j U a ((hl.manages_iff j U a).mp ha) ((hl.dead_iff j).mp hd)
  listed j U a ha hd := by
    have ha' := (hl.manages_iff j U a).mp ha
    obtain ⟨pre, post, hL, hpre, hpost, hb⟩ := h.listed j U a ha' (hl.live hd)
    have hb' : ∀ d, ConstructedWith w'.trace a d → Before w' j pre d := by
      intro d hc
      rw [hl.trace] at hc
      exact (hb d hc).append hl.appended fun k => anc_of_upstream hl.upstream
    by_cases hj : j = i
    · subst hj
      have hne : U ≠ T := by
        intro he
        subst he
        exact hunman a ha'
      exact ⟨pre, post ++ [T], by rw [hl.listed, hL]; simp, hpre, by simp [hpost, hne], hb'⟩
    · exact ⟨pre, post, (hl.list j hj).trans hL, hpre, hpost, hb'⟩
  entry j U hj hd hU hab := by
    rw [hl.typeMap]
    by_cases hji : j = i
    · subst hji
      rw [hl.listed, List.mem_append, List.mem_singleton] at hU
      rcases hU with hU | rfl
      · exact h.entry j U (hl.count ▸ hj) (hl.live hd) hU hab
      · exact hent hab
    · rw [hl.list j hji] at hU
      exact h.entry j U (hl.count ▸ hj) (hl.live hd) hU hab
  order j U a d ha hc p q hs := by
    rw [hl.trace] at hc hs
    exact h.order j U a d ((hl.manages_iff j U a).mp ha) hc p q hs
  bound n hn := by
    rw [hl.trace] at hn
    rw [hl.fresh]
    exact h.bound n hn

/-! ### A child is constructed -/

section
variable (i : ℕ) (w : World)

theorem newChild_lt {j : ℕ} (hj : j < (w.newChild i).count) : j < w.count ∨ j = w.count := by
  rw [World.newChild_count] at hj
  omega

theorem newChild_old {j : ℕ} (hj : j < w.count) : (w.newChild i).inj j = w.inj j :=
  World.newChild_inj_ne w i j (by omega)

theorem newChild_anc (hw : w.WF) {j : ℕ} (hj : j < w.count) (k : ℕ) (ha : Anc w k j) :
    Anc (w.newChild i) k j := ha.congr hw hj fun l hl => by rw [newChild_old i w hl]

theorem newChild_appended : (w.newChild i).trace = w.trace ++ [] := by simp

theorem newChild_entry {U : Hash_t} {c : TypeContainer}
    (hc : ((w.newChild i).inj w.count).typeMap_.lookup U = some c) :
    U = injectorHash ∧ c = ⟨some (.injector w.count), false⟩ := by
  rw [World.newChild_inj_self] at hc
  exact Injector.construct_entry hc

theorem newChild_recipe {U : Hash_t} {r : Recipe}
    (hr : ((w.newChild i).inj w.count).recipeMap_.lookup U = some r) :
    U = injectorHash ∧ r = .child := by
  rw [World.newChild_inj_self] at hr
  exact Injector.construct_recipe hr

end

theorem Inv.newChild (h : Inv ty w) (hi : i < w.count) (hdi : ¬ Dead w i) :
    Inv ty (w.newChild i) where
  wf := (Ext.newChild i w).wf hi h.wf
  dead j hj := Nat.lt_succ_of_lt (h.dead j hj)
  parents j p hj hd hp := by
    rcases newChild_lt i w hj with hj | rfl
    · rw [newChild_old i w hj] at hp
      exact h.parents j p hj hd hp
    · rw [World.newChild_inj_self] at hp
      cases hp
      exact hdi
  fresh j U body hj hr := by
    rcases newChild_lt i w hj with hj | rfl
    · rw [newChild_old i w hj] at hr
      exact h.fresh j U body hj hr
    · cases (newChild_recipe i w hr).2
  child j U hj hr := by
    rcases newChild_lt i w hj with hj | rfl
    · rw [newChild_old i w hj] at hr
      exact h.child j U hj hr
    · exact (newChild_recipe i w hr).1
  self j hj hd := by
    rcases newChild_lt i w hj with hj | rfl
    · rw [newChild_old i w hj]
      exact h.self j hj hd
    · rw [World.newChild_inj_self]
      rfl
  home j U c d hj hd hc hp := by
    rcases newChild_lt i w hj with hj | rfl
    · rw [newChild_old i w hj] at hc
      exact (h.home j U c d hj hd hc hp).append (newChild_appended i w) (newChild_anc i w h.wf hj)
    · obtain ⟨rfl, rfl⟩ := newChild_entry i w hc
      cases hp
      exact Or.inl ⟨_, rfl, .self _⟩
  managed j U a ha := by
    obtain ⟨hj, hab, hn⟩ := h.managed j U a ha
    exact ⟨Nat.lt_succ_of_lt hj, hab, hn⟩
  owned j U a hj hd := by
    rcases newChild_lt i w hj with hj | rfl
    · rw [newChild_old i w hj]
      exact h.owned j U a hj hd
    · constructor
      · intro ha
        have hc := (h.managed _ U a ha).1
        omega
      · intro hc
        cases (newChild_entry i w hc).2
  unique := h.unique
  alive := h.alive
  once := h.once
  listed j U a ha hd := by
    have hj := (h.managed j U a ha).1
    obtain ⟨pre, post, hL, hpre, hpost, hb⟩ := h.listed j U a ha hd
    refine ⟨pre, post, by rw [newChild_old i w hj]; exact hL, hpre, hpost, fun d hc => ?_⟩
    exact (hb d hc).append (newChild_appended i w) (newChild_anc i w h.wf hj)
  entry j U hj hd hU hab := by
    rcases newChild_lt i w hj with hj | rfl
    · rw [newChild_old i w hj] at hU ⊢
      exact h.entry j U hj hd hU hab
    · rw [World.newChild_inj_self] at hU
      cases hU
  order := h.order
  bound := h.bound

theorem root_inv (ty : Types) : Inv ty World.root where
  wf := root_wf
  dead i h := by cases h
  parents i p _ _ hp := by cases hp
  fresh i T body _ hl m := by cases (Injector.construct_recipe hl).2
  child i T _ hl := (Injector.construct_recipe hl).1
  self i hi _ := by
    have hi0 : i = 0 := Nat.lt_one_iff.mp hi
    subst hi0
    rfl
  home i T c d hi _ hl hp := by
    have hi0 : i = 0 := Nat.lt_one_iff.mp hi
    subst hi0
    obtain ⟨rfl, rfl⟩ := Injector.construct_entry hl
    cases hp
    exact Or.inl ⟨0, rfl, .self 0⟩
  managed i T a h := by cases h
  owned i T a hi _ := by
    constructor
    · intro h
      cases h
    · intro hl
      cases (Injector.construct_entry hl).2
  unique i j T U a h := by cases h
  alive i T a h := by cases h
  once i T a h := by cases h
  listed i T a h := by cases h
  entry i T _ _ h := by cases h
  order i T a d h := by cases h
  bound n h := by
    rcases h with ⟨st, h⟩ | h <;> cases h

end
end Omulator.Di
