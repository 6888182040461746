import Omulator.Core.Application
import Mathlib.Logic.Relation

/-!
# Threads that wait for one another (`src/main.cpp`, `src/Interpreter.cpp`,
`src/msg/MailboxEndpoint.cpp`)

A callback of a script locks other mailboxes while its thread has the one of the Interpreter; no
other thread locks a mailbox while it has one. So no threads wait for one another in a circle, and
a mutex that a thread waits for can always come free.
-/

namespace Omulator.Application
open Lib Relation

def Waits (s : System) (t u : Thread) : Prop :=
  ∃ m, (s.threads t).wanted t = some m ∧ (s.endpoints m).mtx_ = some u

/-- How far the thread is from releasing what it has. -/
def Place.effort : Place → ℕ
  | .registering | .testWait => 1
  | .pumping rest => 2 * rest.length + 1
  | .callback _ rest => 2 * rest.length + 2
  | .wants _ _ next => next.effort + 2
  | .holds _ _ next => next.effort + 1
  | _ => 0

section
variable {s s' : System} {t u : Thread} {m : Mailbox} {p : Place} {interactive : Bool}

theorem Inv.wants {mq : List Message} {next : Place} (hI : Inv s)
    (hp : s.threads t = .wants m mq next) : Sends t m mq next := by
  have hfits := hI.fits t
  rw [hp] at hfits
  exact hfits

theorem Inv.held_of_wanted (hI : Inv s) (hw : (s.threads t).wanted t = some m) :
    (s.threads t).held t = [] ∨
      t = .interpreter ∧ (s.threads t).held t = [.Interpreter] ∧ m ≠ .Interpreter := by
  cases hp : s.threads t with
  | wants m' mq next =>
    rw [hp] at hw
    cases hw
    exact (hI.wants hp).held
  | on | lockWait | lockMail => exact .inl rfl
  | _ =>
    rw [hp] at hw
    cases hw

theorem Waits.interpreter (hI : Inv s) (h : Waits s t u) {v : Thread} (hv : Waits s v t) :
    t = .interpreter := by
  obtain ⟨m, hw, -⟩ := h
  obtain ⟨m', -, hm'⟩ := hv
  have hmem := (hI.owned m' t).mp hm'
  rcases hI.held_of_wanted hw with hheld | ⟨ht, -⟩
  · rw [hheld] at hmem
    cases hmem
  · exact ht

theorem not_waits_interpreter (hI : Inv s) : ¬ Waits s .interpreter .interpreter := by
  rintro ⟨m, hw, hm⟩
  have hmem := (hI.owned m .interpreter).mp hm
  rcases hI.held_of_wanted hw with hheld | ⟨-, hheld, hne⟩
  · rw [hheld] at hmem
    cases hmem
  · rw [hheld, List.mem_singleton] at hmem
    exact hne hmem

theorem no_circle (hI : Inv s) : ¬ TransGen (Waits s) t t := by
  intro h
  -- whoever is in a circle waits and is waited for
  obtain ⟨u, htu, hut⟩ := TransGen.head'_iff.mp h
  obtain ⟨v, -, hvt⟩ := TransGen.tail'_iff.mp h
  have ht : t = .interpreter := htu.interpreter hI hvt
  have hu : u = .interpreter := by
    rcases ReflTransGen.cases_head hut with rfl | ⟨w, huw, -⟩
    · exact ht
    · exact huw.interpreter hI htu
  rw [ht, hu] at htu
  exact not_waits_interpreter hI htu

/-! ### A mutex comes free -/

/-- A thread that has a mutex and waits for none comes closer to releasing it. -/
theorem go_closer (hheld : (s.threads t).held t ≠ []) (hw : (s.threads t).wanted t = none) :
    ∃ s', s.go interactive t = some s' ∧ s'.exited = s.exited ∧
      (∀ u, u ≠ t → s'.threads u = s.threads u) ∧
      (s'.threads t).effort < (s.threads t).effort := by
  unfold System.go
  cases hp : s.threads t with
  | registering =>
    refine ⟨_, rfl, rfl, fun u hu => Function.update_of_ne hu _ _, ?_⟩
    rw [System.release, goto_self]
    exact Nat.one_pos
  | testWait =>
    refine ⟨_, rfl, rfl, fun u hu => Function.update_of_ne hu _ _, ?_⟩
    rw [System.release, goto_self]
    split <;> exact Nat.one_pos
  | pumping rest =>
    cases rest with
    | nil =>
      refine ⟨_, rfl, rfl, fun u hu => Function.update_of_ne hu _ _, ?_⟩
      rw [System.release, goto_self]
      exact Nat.one_pos
    | cons message rest =>
      obtain ⟨p, hthreads, hplace⟩ : ∃ p, (s.deliver t message rest).threads =
        Function.update s.threads t p ∧ (p = .callback message rest ∨ p = .pumping rest) :=
          deliver_threads
      refine ⟨_, rfl, deliver_exited, fun u hu => ?_, ?_⟩
      · rw [hthreads, Function.update_of_ne hu]
      · rw [hthreads, Function.update_self]
        rcases hplace with rfl | rfl
        · simp only [Place.effort, List.length_cons]
          omega
        · simp only [Place.effort, List.length_cons]
          omega
  | callback message rest =>
    refine ⟨_, rfl, rfl, fun u hu => Function.update_of_ne hu _ _, ?_⟩
    rw [goto_self]
    exact Nat.lt_succ_self _
  | wants m mq next =>
    rw [hp] at hw
    cases hw
  | holds m mq next =>
    have hthreads : (if m = .App then (s.release t m (·.push mq) next).note .quit
        else s.release t m (·.push mq) next).threads = Function.update s.threads t next := by
      split <;> rfl
    refine ⟨_, rfl, ?_, fun u hu => ?_, ?_⟩
    · split <;> rfl
    · rw [hthreads, Function.update_of_ne hu]
    · rw [hthreads, Function.update_self]
      exact Nat.lt_succ_self _
  | _ =>
    rw [hp] at hheld
    exact absurd rfl hheld

theorem step_go (hexited : s.exited = false) (h : s.go interactive t = some s') :
    System.Step interactive s (.go t) s' := by
  show (if s.exited = true then none else s.go interactive t) = some s'
  rw [hexited, if_neg Bool.false_ne_true, h]

theorem free_or_kept (hI : Inv s) (hI' : Inv s') (hother : ∀ u, u ≠ t → s'.threads u = s.threads u)
    (hm : (s.endpoints m).mtx_ = some t) :
    (s'.endpoints m).mtx_ = none ∨ (s'.endpoints m).mtx_ = some t := by
  cases hm' : (s'.endpoints m).mtx_ with
  | none => exact .inl rfl
  | some v =>
    refine .inr ?_
    by_cases hv : v = t
    · rw [hv]
    · have hmem := (hI'.owned m v).mp hm'
      rw [hother v hv] at hmem
      exact absurd (Option.some.inj (((hI.owned m v).mpr hmem).symm.trans hm)) hv

theorem comes_free (hI : Inv s) (hexited : s.exited = false) (ht : t ≠ .interpreter)
    (hm : (s.endpoints m).mtx_ = some t) :
    ∃ s', Run (System.Step interactive) s s' ∧ Inv s' ∧ s'.exited = false ∧
      (∀ u, u ≠ t → s'.threads u = s.threads u) ∧ (s'.endpoints m).mtx_ = none := by
  generalize hn : (s.threads t).effort = n
  induction n using Nat.strongRecOn generalizing s with
  | ind n ih =>
    have hheld : (s.threads t).held t ≠ [] := List.ne_nil_of_mem ((hI.owned m t).mp hm)
    have hw : (s.threads t).wanted t = none := by
      cases hw : (s.threads t).wanted t with
      | none => rfl
      | some m' =>
        rcases hI.held_of_wanted hw with h | ⟨h, -⟩
        · exact absurd h hheld
        · exact absurd h ht
    obtain ⟨s₁, hgo, hexited₁, hother, hlt⟩ := go_closer hheld hw
    have hstep := step_go hexited hgo
    have hI₁ : Inv s₁ := hI.step hstep
    have hrun : Run (System.Step interactive) s s₁ := Run.next' .start hstep
    rw [hexited] at hexited₁
    rcases free_or_kept hI hI₁ hother hm with hm₁ | hm₁
    · exact ⟨s₁, hrun, hI₁, hexited₁, hother, hm₁⟩
    · obtain ⟨s₂, hrun₂, hI₂, hexited₂, hother₂, hm₂⟩ := ih _ (hn ▸ hlt) hI₁ hexited₁ hm₁ rfl
      exact ⟨s₂, hrun.trans hrun₂, hI₂, hexited₂,
        fun u hu => (hother₂ u hu).trans (hother u hu), hm₂⟩

theorem wants_of_wanted (hheld : (s.threads t).held t ≠ [])
    (hw : (s.threads t).wanted t = some m) :
    ∃ mq next, s.threads t = .wants m mq next := by
  cases hp : s.threads t with
  | wants m' mq next =>
    rw [hp] at hw
    cases hw
    exact ⟨mq, next, rfl⟩
  | on | lockWait | lockMail =>
    rw [hp] at hheld
    exact absurd rfl hheld
  | _ =>
    rw [hp] at hw
    cases hw

/-- So does the thread of the Interpreter, after those whose mutexes its script waits for. -/
theorem interpreter_comes_free (hI : Inv s) (hexited : s.exited = false)
    (hm : (s.endpoints m).mtx_ = some .interpreter) :
    ∃ s', Run (System.Step interactive) s s' ∧ Inv s' ∧ s'.exited = false ∧
      (∀ u, u ≠ .interpreter → (s.threads u).held u = [] → s'.threads u = s.threads u) ∧
      (s'.endpoints m).mtx_ = none := by
  generalize hn : (s.threads .interpreter).effort = n
  induction n using Nat.strongRecOn generalizing s with
  | ind n ih =>
    have hheld : (s.threads .interpreter).held .interpreter ≠ [] :=
      List.ne_nil_of_mem ((hI.owned m .interpreter).mp hm)
    -- what is left when one step has brought it closer
    have hrest : ∀ {s₁ s₂}, Run (System.Step interactive) s s₁ → Inv s₁ → s₁.exited = false →
        (∀ u, u ≠ .interpreter → (s.threads u).held u = [] → s₁.threads u = s.threads u) →
        (s₁.endpoints m).mtx_ = some .interpreter → s₁.go interactive .interpreter = some s₂ →
        s₂.exited = s₁.exited → (∀ u, u ≠ .interpreter → s₂.threads u = s₁.threads u) →
        (s₂.threads .interpreter).effort < n →
        ∃ s', Run (System.Step interactive) s s' ∧ Inv s' ∧ s'.exited = false ∧
          (∀ u, u ≠ .interpreter → (s.threads u).held u = [] → s'.threads u = s.threads u) ∧
          (s'.endpoints m).mtx_ = none := by
      intro s₁ s₂ hrun hI₁ hexited₁ hkept hm₁ hgo hexited₂ hother hlt
      have hstep := step_go hexited₁ hgo
      have hI₂ : Inv s₂ := hI₁.step hstep
      have hkept₂ : ∀ u, u ≠ .interpreter → (s.threads u).held u = [] →
          s₂.threads u = s.threads u := fun u hu hidle => (hother u hu).trans (hkept u hu hidle)
      rw [hexited₁] at hexited₂
      rcases free_or_kept hI₁ hI₂ hother hm₁ with hm₂ | hm₂
      · exact ⟨s₂, Run.next' hrun hstep, hI₂, hexited₂, hkept₂, hm₂⟩
      · obtain ⟨s₃, hrun₃, hI₃, hexited₃, hkept₃, hm₃⟩ := ih _ hlt hI₂ hexited₂ hm₂ rfl
        refine ⟨s₃, (Run.next' hrun hstep).trans hrun₃, hI₃, hexited₃, fun u hu hidle => ?_, hm₃⟩
        have hu₂ := hkept₂ u hu hidle
        rw [← hu₂]
        exact hkept₃ u hu (by rw [hu₂]; exact hidle)
    cases hw : (s.threads .interpreter).wanted .interpreter with
    | none =>
      obtain ⟨s₁, hgo, hexited₁, hother, hlt⟩ := go_closer hheld hw
      exact hrest .start hI hexited (fun _ _ _ => rfl) hm hgo hexited₁ hother (hn ▸ hlt)
    | some m' =>
      obtain ⟨mq, next, hp⟩ := wants_of_wanted hheld hw
      have hne : (s.endpoints m').mtx_ ≠ some .interpreter := fun hm' =>
        not_waits_interpreter hI ⟨m', hw, hm'⟩
      obtain ⟨s₁, hrun, hI₁, hexited₁, hkept, hplace, hfree⟩ : ∃ s₁,
          Run (System.Step interactive) s s₁ ∧ Inv s₁ ∧ s₁.exited = false ∧
          (∀ u, u ≠ .interpreter → (s.threads u).held u = [] → s₁.threads u = s.threads u) ∧
          s₁.threads .interpreter = s.threads .interpreter ∧ (s₁.endpoints m').mtx_ = none := by
        cases hm' : (s.endpoints m').mtx_ with
        | none => exact ⟨s, .start, hI, hexited, fun _ _ _ => rfl, rfl, hm'⟩
        | some v =>
          have hv : v ≠ .interpreter := fun he => hne (by rw [hm', he])
          obtain ⟨s₁, hrun, hI₁, hexited₁, hother, hfree⟩ := comes_free hI hexited hv hm'
          refine ⟨s₁, hrun, hI₁, hexited₁, fun u hu hidle => ?_, hother _ (Ne.symm hv), hfree⟩
          refine hother u ?_
          rintro rfl
          have hmem := (hI.owned m' u).mp hm'
          rw [hidle] at hmem
          cases hmem
      have hm₁ : (s₁.endpoints m).mtx_ = some .interpreter :=
        (hI₁.owned m _).mpr (by rw [hplace]; exact (hI.owned m _).mp hm)
      have hgo : s₁.go interactive .interpreter = some (System.goto .interpreter
          (.holds m' mq next) { s₁ with
            endpoints := Function.update s₁.endpoints m'
              { s₁.endpoints m' with mtx_ := some .interpreter } }) := by
        simp only [System.go, hplace, hp, System.acquire, hfree, if_true]
      refine hrest hrun hI₁ hexited₁ hkept hm₁ hgo rfl (fun u hu => Function.update_of_ne hu _ _) ?_
      rw [goto_self, ← hn, hp]
      exact Nat.lt_succ_self _

/-- No threads wait for one another in a circle, and whatever mutex a thread waits for can come
free while it waits. -/
theorem application_never_stuck (h : Run (System.Step interactive) {} s)
    (hexited : s.exited = false) :
    (∀ t, ¬ TransGen (Waits s) t t) ∧
    ∀ t m, (s.threads t).wanted t = some m →
      ∃ s', Run (System.Step interactive) s s' ∧ s'.exited = false ∧
        s'.threads t = s.threads t ∧ (s'.endpoints m).mtx_ = none := by
  have hI := inv_of_run h
  refine ⟨fun t => no_circle hI, fun t m hw => ?_⟩
  cases hm : (s.endpoints m).mtx_ with
  | none => exact ⟨s, .start, hexited, rfl, hm⟩
  | some u =>
    have hut : u ≠ t := by
      rintro rfl
      exact no_circle hI (.single ⟨m, hw, hm⟩)
    by_cases hu : u = .interpreter
    · subst hu
      have hidle : (s.threads t).held t = [] := by
        rcases hI.held_of_wanted hw with hidle | ⟨ht, -⟩
        · exact hidle
        · exact absurd ht.symm hut
      obtain ⟨s', hrun, -, hexited', hkept, hfree⟩ := interpreter_comes_free hI hexited hm
      exact ⟨s', hrun, hexited', hkept t (Ne.symm hut) hidle, hfree⟩
    · obtain ⟨s', hrun, -, hexited', hother, hfree⟩ := comes_free hI hexited hu hm
      exact ⟨s', hrun, hexited', hother t (Ne.symm hut), hfree⟩

end

/-- The main thread waits for the mailbox of the graphics engine, which renders a frame. -/
def rendering : List Label :=
  List.replicate 6 (.go .main) ++ [.poll none, .go .main, .go .main] ++
  List.replicate 6 (.go .graphics) ++ [.go .main, .go .main, .go .main, .poll none]

theorem rendering_comes_free : ∃ s, follow (System.step false) rendering {} = some s ∧
    Waits s .main .graphics ∧
    ∃ s', Run (System.Step false) s s' ∧ s'.exited = false ∧
      s'.threads .main = s.threads .main ∧
      (s'.endpoints .CoreGraphicsEngine).mtx_ = none := by
  obtain ⟨s, hs⟩ : ∃ s, follow (System.step false) rendering {} = some s := ⟨_, rfl⟩
  have hwants : (s.threads .main).wanted .main = some .CoreGraphicsEngine ∧
      (s.endpoints .CoreGraphicsEngine).mtx_ = some .graphics ∧ s.exited = false := by
    cases hs
    exact ⟨rfl, rfl, rfl⟩
  obtain ⟨hw, hm, hexited⟩ := hwants
  exact ⟨s, hs, ⟨_, hw, hm⟩, (application_never_stuck (run_of_follow hs) hexited).2 _ _ hw⟩

end Omulator.Application
