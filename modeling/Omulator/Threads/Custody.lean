import Omulator.Threads.Storages

/-!
# Who has a storage (`src/msg/MessageQueueFactory.cpp`, `src/msg/MailboxEndpoint.cpp`)

In every run the storages are in the pool, in one variable of one thread, in the queue of one
endpoint, or on their way back, and what is pushed is received in the order in which it was sent.
-/

namespace Omulator.Storages
open Omulator.Lib Omulator.Msg

variable {ι : Type}

section
variable {receiver : ℕ → ι} {eps eps' : ℕ → MailboxEndpoint ι} {t : ι} {w w' : Thread}
variable {e : ℕ} {x : MailboxEndpoint ι} {pl : Place} {vars : ℕ → Option MessageQueue}

/-! ### A thread and the endpoints -/

theorem Place.Ok.congr (h : pl.Ok receiver eps t vars) (hsame : ∀ f ∈ pl.locks, eps' f = eps f)
    (hne : ∀ f, receiver f = t → (eps f).queue_ ≠ [] → (eps' f).queue_ ≠ []) :
    pl.Ok receiver eps' t vars := by
  cases pl with
  | user | counting _ | creating _ | pushing _ _ | sending _ _ | marking _ | blocking _
  | looping _ => exact h
  | locking f => exact ⟨h.1, hne f h.1 h.2⟩
  | queueing k f | notifying k f => exact ⟨h.1, by rw [hsame f (by simp [locks])]; exact h.2⟩
  | woken f | unlocking f => exact ⟨h.1, by rw [hsame f (by simp [locks])]; exact h.2⟩
  | taking f | pumping f _ | clearing f _ | enqueuing f _ | popping f =>
    exact ⟨h.1, by rw [hsame f (by simp [locks])]; exact h.2⟩

theorem Thread.Fits.congr (h : w.Fits receiver eps t) (hsame : ∀ f ∈ w.locks, eps' f = eps f)
    (hmtx : ∀ f, (eps' f).mtx_ = some t → (eps f).mtx_ = some t)
    (hne : ∀ f, receiver f = t → (eps f).queue_ ≠ [] → (eps' f).queue_ ≠ []) :
    w.Fits receiver eps' t where
  nodup := h.nodup
  owner f := by
    refine ⟨fun hf => ?_, fun hm => (h.owner f).mpr (hmtx f hm)⟩
    rw [hsame f hf]
    exact (h.owner f).mp hf
  calls c hc := by
    rw [hsame c.1 (List.mem_append_right _ (List.mem_map_of_mem hc))]
    exact h.calls c hc
  ok := h.ok.congr (fun f hf => hsame f (List.mem_append_left _ hf)) hne

theorem Thread.Fits.goto (h : w.Fits receiver eps t) (hcalls : w'.calls = w.calls)
    (hlocks : w'.place.locks = w.place.locks) (hok : w'.place.Ok receiver eps t w'.vars) :
    w'.Fits receiver eps t := by
  have hl : w'.locks = w.locks := by
    rw [locks, locks, hcalls, hlocks]
  refine ⟨hl ▸ h.nodup, hl ▸ h.owner, ?_, hok⟩
  rw [hcalls]
  exact h.calls

theorem Thread.Fits.goAt (h : w.Fits receiver eps t) (hcalls : w'.calls = w.calls)
    (he : e ∉ w.calls.map Prod.fst) (hplace : ∀ f ∈ w.place.locks, f = e)
    (hlocks : w'.place.locks = [e] ∧ x.mtx_ = some t ∨ w'.place.locks = [] ∧ x.mtx_ = none)
    (hok : w'.place.Ok receiver (Function.update eps e x) t w'.vars) :
    w'.Fits receiver (Function.update eps e x) t where
  nodup := by
    have hnd : (w.calls.map Prod.fst).Nodup := h.nodup.sublist (List.sublist_append_right _ _)
    rw [locks, hcalls]
    rcases hlocks with ⟨hl, -⟩ | ⟨hl, -⟩
    · rw [hl]
      exact List.nodup_cons.mpr ⟨he, hnd⟩
    · rw [hl]
      exact hnd
  owner f := by
    rw [locks, hcalls, List.mem_append]
    by_cases hfe : f = e
    · rw [hfe, Function.update_self]
      rcases hlocks with ⟨hl, hm⟩ | ⟨hl, hm⟩
      · rw [hl, hm]
        exact ⟨fun _ => rfl, fun _ => .inl (List.mem_singleton_self e)⟩
      · rw [hl, hm]
        exact ⟨fun hf => absurd (hf.resolve_left (by simp)) he, fun hf => by cases hf⟩
    · have hf' : f ∉ w'.place.locks := by
        rcases hlocks with ⟨hl, -⟩ | ⟨hl, -⟩ <;> rw [hl]
        · simpa using hfe
        · simp
      rw [Function.update_of_ne hfe, ← h.owner f, locks, List.mem_append]
      exact ⟨fun hf => .inr (hf.resolve_left hf'),
        fun hf => .inr (hf.resolve_left fun hf => hfe (hplace f hf))⟩
  calls c hc := by
    rw [hcalls] at hc
    have hce : c.1 ≠ e := by
      intro hce
      exact he (hce ▸ List.mem_map_of_mem hc)
    rw [Function.update_of_ne hce]
    exact h.calls c hc
  ok := hok

theorem Thread.Fits.has_locked (h : w.Fits receiver eps t) (hl : w.place.locks = [e]) :
    (eps e).mtx_ = some t := by
  refine (h.owner e).mp ?_
  rw [locks, hl]
  exact List.mem_cons_self

theorem Thread.Fits.not_call (h : w.Fits receiver eps t) (hl : w.place.locks = [e]) :
    e ∉ w.calls.map Prod.fst := by
  have hnd := h.nodup
  rw [locks, hl] at hnd
  exact (List.nodup_cons.mp hnd).1

theorem Thread.Fits.not_call_of_free (h : w.Fits receiver eps t) (hm : (eps e).mtx_ = none) :
    e ∉ w.calls.map Prod.fst := by
  intro he
  have hown := (h.owner e).mp (List.mem_append_right _ he)
  rw [hm] at hown
  cases hown

end

/-! ### Steps that leave the storages where they are -/

section
variable {id_ : ℕ} {receiver : ℕ → ι} {s s' : System ι} {t : ι} {w : Thread} {e : ℕ}
variable {x : MailboxEndpoint ι}

theorem Inv.start (id_ : ℕ) (receiver : ℕ → ι) : Inv id_ receiver {} where
  placed := by
    have hempty : ∀ y : Spot ι, ({} : System ι).held y = [] := by
      intro y
      cases y <;> rfl
    refine ⟨⟨fun y => ?_, fun y z a ha => ?_, fun y a ha => ?_⟩, fun a ha => ?_⟩
    · rw [hempty]
      exact List.nodup_nil
    · rw [hempty] at ha
      cases ha
    · rw [hempty] at ha
      cases ha
    · exact absurd ha (Nat.not_lt_zero a)
  filled := by
    refine ⟨fun p hp => absurd hp (Nat.not_lt_zero p), ?_, fun e => rfl⟩
    intro y p msgs hp
    cases y <;> cases hp
  lined e := ⟨fun _ => rfl, by simp, fun _ => rfl, by simp⟩
  fits t := ⟨List.nodup_nil, by simp [Thread.locks, Place.locks], by simp, trivial⟩
  quiet := by simp
  defined := rfl

theorem Inv.others_same (h : Inv id_ receiver s)
    (hm : (s.endpoints e).mtx_ = none ∨ (s.endpoints e).mtx_ = some t) {u : ι} (hu : u ≠ t)
    {f : ℕ} (hf : f ∈ (s.threads u).locks) : Function.update s.endpoints e x f = s.endpoints f := by
  refine Function.update_of_ne ?_ _ _
  intro hfe
  have hown := ((h.fits u).owner f).mp hf
  rw [hfe] at hown
  rcases hm with hm | hm
  · rw [hm] at hown
    cases hown
  · rw [hm] at hown
    exact hu (Option.some.inj hown).symm

theorem left_congr {heap heap' : ℕ → Storage_t} {x : MailboxEndpoint ι} (hx : x.Lined)
    (hsame : ∀ p ∈ x.holds, (heap' p).storage = (heap p).storage) : x.left heap' = x.left heap := by
  have hmem : ∀ mq ∈ x.queue_, mq.valid_ = true → mq.pStorage_ ∈ x.holds := fun mq hmq hv =>
    List.mem_map_of_mem (List.mem_filter.mpr ⟨hmq, hv⟩)
  unfold MailboxEndpoint.left
  cases hq : x.queue_ with
  | nil => rfl
  | cons mq mqs =>
    obtain ⟨hv, hvs⟩ := hx.first mq mqs hq
    rw [hq] at hmem
    have hrest : mqs.flatMap (fun mq => (heap' mq.pStorage_).storage) =
        mqs.flatMap fun mq => (heap mq.pStorage_).storage := by
      refine List.flatMap_congr fun mq' hmq' => ?_
      exact hsame _ (hmem mq' (List.mem_cons_of_mem _ hmq') (hvs mq' hmq'))
    cases hp : x.passed with
    | none => simp only [hrest]
    | some i =>
      rw [hp] at hv
      simp only [hrest, hsame _ (hmem mq List.mem_cons_self hv)]

theorem MailboxEndpoint.Lined.append {x' : MailboxEndpoint ι} {mq : MessageQueue} (hx : x.Lined)
    (hpassed : x.passed = some 0) (hv : mq.valid_ = true) (hsealed : mq.sealed_ = true)
    (hqueue : x'.queue_ = x.queue_ ++ [mq]) (hp : x'.passed = x.passed) (hm : x'.mtx_ = x.mtx_) :
    x'.Lined where
  free hfree := by
    rw [hp]
    exact hx.free (hm ▸ hfree)
  allSealed mq' hmq' := by
    rw [hqueue] at hmq'
    rcases List.mem_append.mp hmq' with hmq' | hmq'
    · exact hx.allSealed mq' hmq'
    · rw [List.mem_singleton.mp hmq']
      exact hsealed
  empty hempty := by
    rw [hp]
    exact hpassed
  first mq' mqs hq := by
    rw [hqueue] at hq
    rw [hp]
    cases hold : x.queue_ with
    | nil =>
      rw [hold, List.nil_append, List.cons.injEq] at hq
      rw [← hq.1, ← hq.2, hv, hpassed]
      exact ⟨rfl, by simp⟩
    | cons a as =>
      obtain ⟨ha, has⟩ := hx.first a as hold
      rw [hold, List.cons_append, List.cons.injEq] at hq
      rw [← hq.1, ← hq.2]
      refine ⟨ha, ?_⟩
      intro b hb
      rcases List.mem_append.mp hb with hb | hb
      · exact has b hb
      · rw [List.mem_singleton.mp hb]
        exact hv

theorem left_append {heap : ℕ → Storage_t} {x' : MailboxEndpoint ι} {mq : MessageQueue}
    (hpassed : x.passed = some 0) (hqueue : x'.queue_ = x.queue_ ++ [mq])
    (hp : x'.passed = x.passed) : x'.left heap = x.left heap ++ (heap mq.pStorage_).storage := by
  cases hold : x.queue_ with
  | nil => simp [MailboxEndpoint.left, hqueue, hold, hp, hpassed]
  | cons a as => simp [MailboxEndpoint.left, hqueue, hold, hp, hpassed]

theorem others_mtx (hx : x.mtx_ = none ∨ x.mtx_ = some t) {u : ι} (hu : u ≠ t) {f : ℕ}
    (hm : (Function.update s.endpoints e x f).mtx_ = some u) : (s.endpoints f).mtx_ = some u := by
  by_cases hf : f = e
  · rw [hf, Function.update_self] at hm
    rcases hx with hx | hx
    · rw [hx] at hm
      cases hm
    · rw [hx] at hm
      exact absurd (Option.some.inj hm).symm hu
  · rwa [Function.update_of_ne hf] at hm

theorem Inv.write_other {y z : Spot ι} {p q : ℕ} (h : Inv id_ receiver s) {v : Storage_t}
    (hp : p ∈ s.held y) (hq : q ∈ s.held z) (hyz : z ≠ y) :
    Function.update s.heap p v q = s.heap q := by
  refine Function.update_of_ne ?_ _ _
  intro hqp
  exact hyz (h.placed.apart.one z y q hq (hqp ▸ hp))

theorem owns_same {pl : Place} (h : (s.threads t).place.sent = pl.sent) :
    Thread.owns { s.threads t with place := pl } = (s.threads t).owns := by
  funext k
  simp only [Thread.owns, h]

theorem Inv.report {err : Error} (h : Inv id_ receiver s) (herr : internal err = false) :
    Inv id_ receiver (s.report err) := by
  have hexpected : ∀ y, (s.report err).expected y = s.expected y := by
    intro y
    cases y <;> rfl
  refine ⟨h.placed, ⟨h.filled.ids, ?_, h.filled.mail⟩, h.lined, h.fits, ?_, h.defined⟩
  · intro y p msgs hp hx
    rw [hexpected] at hx
    exact h.filled.stored y p msgs hp hx
  · intro err' herr'
    rcases List.mem_append.mp herr' with herr' | herr'
    · exact h.quiet err' herr'
    · rw [List.mem_singleton.mp herr']
      exact herr

variable [DecidableEq ι]

theorem Inv.control (h : Inv id_ receiver s) (hth : s'.threads = Function.update s.threads t w)
    (hsame : ∀ u, u ≠ t → ∀ f ∈ (s.threads u).locks, s'.endpoints f = s.endpoints f)
    (hmtx : ∀ u, u ≠ t → ∀ f, (s'.endpoints f).mtx_ = some u → (s.endpoints f).mtx_ = some u)
    (hne : ∀ f, receiver f ≠ t → (s.endpoints f).queue_ ≠ [] → (s'.endpoints f).queue_ ≠ [])
    (hfit : w.Fits receiver s'.endpoints t) (u : ι) :
    (s'.threads u).Fits receiver s'.endpoints u := by
  rw [hth]
  by_cases hu : u = t
  · rw [hu, Function.update_self]
    exact hfit
  · rw [Function.update_of_ne hu]
    exact (h.fits u).congr (hsame u hu) (hmtx u hu) fun f hf hq => hne f (by rw [hf]; exact hu) hq

theorem held_same (hth : s'.threads = Function.update s.threads t w) {y : Spot ι}
    (hpool : y = .pool → s'.cQueue = s.cQueue)
    (hvar : ∀ k, y = .var t k → w.owns k = (s.threads t).owns k)
    (hsubmit : y = .submit t → w.place.carries = (s.threads t).place.carries)
    (hqueue : ∀ f, y = .queue f → (s'.endpoints f).holds = (s.endpoints f).holds) :
    s'.held y = s.held y := by
  cases y with
  | pool => exact hpool rfl
  | var u k =>
    simp only [System.held, hth]
    by_cases hu : u = t
    · rw [hu, Function.update_self]
      exact hvar k (by rw [hu])
    · rw [Function.update_of_ne hu]
  | submit u =>
    simp only [System.held, hth]
    by_cases hu : u = t
    · rw [hu, Function.update_self]
      exact hsubmit (by rw [hu])
    · rw [Function.update_of_ne hu]
  | queue f => exact hqueue f rfl

theorem held_of_thread (hq : s'.cQueue = s.cQueue)
    (hth : s'.threads = Function.update s.threads t w)
    (howns : w.owns = (s.threads t).owns)
    (hcarries : w.place.carries = (s.threads t).place.carries)
    (hholds : ∀ f, (s'.endpoints f).holds = (s.endpoints f).holds) : s'.held = s.held := by
  funext y
  exact held_same hth (fun _ => hq) (fun k _ => by rw [howns]) (fun _ => hcarries)
    fun f _ => hholds f

theorem Inv.still (h : Inv id_ receiver s) (hth : s'.threads = Function.update s.threads t w)
    (hq : s'.cQueue = s.cQueue) (ha : s'.allocated = s.allocated) (hheap : s'.heap = s.heap)
    (hlog : ∀ err ∈ s'.log, err ∈ s.log ∨ internal err = false) (hdef : s'.undefined = s.undefined)
    (howns : w.owns = (s.threads t).owns) (hdrafts : w.drafts = (s.threads t).drafts)
    (hcarries : (s.threads t).place.carries = []) (hcarries' : w.place.carries = [])
    (hlined : ∀ f, (s'.endpoints f).Lined)
    (hsame : ∀ u, u ≠ t → ∀ f ∈ (s.threads u).locks, s'.endpoints f = s.endpoints f)
    (hmtx : ∀ u, u ≠ t → ∀ f, (s'.endpoints f).mtx_ = some u → (s.endpoints f).mtx_ = some u)
    (hne : ∀ f, receiver f ≠ t → (s.endpoints f).queue_ ≠ [] → (s'.endpoints f).queue_ ≠ [])
    (hholds : ∀ f, (s'.endpoints f).holds = (s.endpoints f).holds)
    (hmail : ∀ f, (s'.endpoints f).received ++ deliverable ((s'.endpoints f).left s.heap) =
      deliverable (s'.endpoints f).accepted.flatten)
    (hfit : w.Fits receiver s'.endpoints t) : Inv id_ receiver s' := by
  have hheld : s'.held = s.held :=
    held_of_thread hq hth howns (hcarries'.trans hcarries.symm) hholds
  refine ⟨?_, ⟨?_, ?_, ?_⟩, hlined, h.control hth hsame hmtx hne hfit, ?_, hdef.trans h.defined⟩
  · rw [hheld, ha]
    exact h.placed
  · rw [ha, hheap]
    exact h.filled.ids
  · intro y p msgs hp hx
    rw [hheap]
    rw [hheld] at hp
    refine h.filled.stored y p msgs hp ?_
    rw [← hx]
    cases y with
    | pool => rfl
    | var u k =>
      simp only [System.expected, hth]
      by_cases hu : u = t
      · rw [hu, Function.update_self, hdrafts]
      · rw [Function.update_of_ne hu]
    | submit u =>
      simp only [System.expected, hth]
      by_cases hu : u = t
      · simp only [System.held, hu, hcarries] at hp
        cases hp
      · rw [Function.update_of_ne hu]
    | queue f => rfl
  · rw [hheap]
    exact hmail
  · intro err herr
    exact (hlog err herr).elim (h.quiet err) id

theorem Inv.move (h : Inv id_ receiver s) (hs' : s' = { s.setThread t w with
      log := s'.log, numActiveQueues_ := s'.numActiveQueues_ })
    (hlog : ∀ err ∈ s'.log, err ∈ s.log ∨ internal err = false)
    (howns : w.owns = (s.threads t).owns) (hdrafts : w.drafts = (s.threads t).drafts)
    (hcarries : (s.threads t).place.carries = []) (hcarries' : w.place.carries = [])
    (hfit : w.Fits receiver s.endpoints t) : Inv id_ receiver s' := by
  have heps : s'.endpoints = s.endpoints := by rw [hs']; rfl
  refine h.still (t := t) (w := w) (by rw [hs']; rfl) (by rw [hs']; rfl) (by rw [hs']; rfl)
    (by rw [hs']; rfl) hlog (by rw [hs']; rfl) howns hdrafts hcarries hcarries' ?_ ?_ ?_ ?_ ?_ ?_ ?_
  · rw [heps]
    exact h.lined
  · intro u _ f _
    rw [heps]
  · intro u _ f hm
    rwa [heps] at hm
  · intro f _ hq
    rw [heps]
    exact hq
  · intro f
    rw [heps]
  · rw [heps]
    exact h.filled.mail
  · rw [heps]
    exact hfit

theorem Inv.at (h : Inv id_ receiver s)
    (hs' : s' = { (s.setEndpoint e x).setThread t w with log := s'.log })
    (hlog : ∀ err ∈ s'.log, err ∈ s.log ∨ internal err = false)
    (howns : w.owns = (s.threads t).owns) (hdrafts : w.drafts = (s.threads t).drafts)
    (hcarries : (s.threads t).place.carries = []) (hcarries' : w.place.carries = [])
    (hm : (s.endpoints e).mtx_ = none ∨ (s.endpoints e).mtx_ = some t)
    (hxm : x.mtx_ = none ∨ x.mtx_ = some t) (hx : x.Lined)
    (hne : receiver e ≠ t → (s.endpoints e).queue_ ≠ [] → x.queue_ ≠ [])
    (hholds : x.holds = (s.endpoints e).holds)
    (hmail : x.received ++ deliverable (x.left s.heap) = deliverable x.accepted.flatten)
    (hfit : w.Fits receiver (Function.update s.endpoints e x) t) : Inv id_ receiver s' := by
  have heps : s'.endpoints = Function.update s.endpoints e x := by rw [hs']; rfl
  refine h.still (t := t) (w := w) (by rw [hs']; rfl) (by rw [hs']; rfl) (by rw [hs']; rfl)
    (by rw [hs']; rfl) hlog (by rw [hs']; rfl) howns hdrafts hcarries hcarries' ?_ ?_ ?_ ?_ ?_ ?_ ?_
  · intro f
    rw [heps]
    by_cases hf : f = e
    · rw [hf, Function.update_self]
      exact hx
    · rw [Function.update_of_ne hf]
      exact h.lined f
  · intro u hu f hf
    rw [heps]
    exact h.others_same hm hu hf
  · intro u hu f hf
    rw [heps] at hf
    exact others_mtx hxm hu hf
  · intro f hr hq
    rw [heps]
    by_cases hf : f = e
    · rw [hf, Function.update_self]
      rw [hf] at hr hq
      exact hne hr hq
    · rw [Function.update_of_ne hf]
      exact hq
  · intro f
    rw [heps]
    by_cases hf : f = e
    · rw [hf, Function.update_self]
      exact hholds
    · rw [Function.update_of_ne hf]
  · intro f
    rw [heps]
    by_cases hf : f = e
    · rw [hf, Function.update_self]
      exact hmail
    · rw [Function.update_of_ne hf]
      exact h.filled.mail f
  · rw [heps]
    exact hfit

theorem Inv.acquire {pl : Place} (h : Inv id_ receiver s) (hs : s.acquire t e pl = some s')
    (hsent : (s.threads t).place.sent = pl.sent) (hcarries : (s.threads t).place.carries = [])
    (hcarries' : pl.carries = []) (hl' : (s.threads t).place.locks = []) (hl : pl.locks = [e])
    (hok : (s.endpoints e).passed = some 0 →
      pl.Ok receiver (Function.update s.endpoints e { s.endpoints e with mtx_ := some t }) t
        (s.threads t).vars) : Inv id_ receiver s' := by
  unfold System.acquire at hs
  split at hs
  · rename_i hfree
    cases hs
    have hpassed := (h.lined e).free hfree
    refine h.at (e := e) (x := { s.endpoints e with mtx_ := some t })
      (w := { s.threads t with place := pl }) rfl (fun err herr => .inl herr) (owns_same hsent) rfl
      hcarries hcarries' (.inl hfree) (.inr rfl) ?_ (fun _ hq => hq) rfl (h.filled.mail e) ?_
    · exact ⟨fun _ => hpassed, (h.lined e).allSealed, (h.lined e).empty, (h.lined e).first⟩
    · exact (h.fits t).goAt rfl ((h.fits t).not_call_of_free hfree) (by simp [hl']) (.inl ⟨hl, rfl⟩)
        (hok hpassed)
  · cases hs

theorem Inv.unlock {pl : Place} (h : Inv id_ receiver s) (hl : (s.threads t).place.locks = [e])
    (hsent : (s.threads t).place.sent = pl.sent) (hcarries : (s.threads t).place.carries = [])
    (hcarries' : pl.carries = []) (hl' : pl.locks = [])
    (hpassed : (s.endpoints e).passed = some 0)
    (hok : pl.Ok receiver (Function.update s.endpoints e { s.endpoints e with mtx_ := none }) t
      (s.threads t).vars) : Inv id_ receiver (s.unlock t e pl) := by
  have hm : (s.endpoints e).mtx_ = some t := (h.fits t).has_locked hl
  refine h.at (e := e) (x := { s.endpoints e with mtx_ := none })
    (w := { s.threads t with place := pl }) rfl (fun err herr => .inl herr) (owns_same hsent) rfl
    hcarries hcarries' (.inr hm) (.inl rfl) ?_ (fun _ hq => hq) rfl (h.filled.mail e) ?_
  · exact ⟨fun _ => hpassed, (h.lined e).allSealed, (h.lined e).empty, (h.lined e).first⟩
  · exact (h.fits t).goAt rfl ((h.fits t).not_call hl) (by simp [hl]) (.inr ⟨hl', rfl⟩) hok

/-! ### Steps that give a storage away -/

theorem expected_same (hth : s'.threads = Function.update s.threads t w) {y : Spot ι}
    (hvar : ∀ k, y = .var t k → w.drafts k = (s.threads t).drafts k) (hsubmit : y ≠ .submit t) :
    s'.expected y = s.expected y := by
  cases y with
  | pool => rfl
  | var u k =>
    simp only [System.expected, hth]
    by_cases hu : u = t
    · rw [hu, Function.update_self, hvar k (by rw [hu])]
    · rw [Function.update_of_ne hu]
  | submit u =>
    simp only [System.expected, hth]
    by_cases hu : u = t
    · exact absurd (by rw [hu]) hsubmit
    · rw [Function.update_of_ne hu]
  | queue f => rfl

theorem Inv.fresh {s₁ : System ι} {k p : ℕ} (h : Inv id_ receiver s)
    (hplace : (s.threads t).place = .user ∨ (s.threads t).place = .creating k)
    (hth : s₁.threads = s.threads) (heps : s₁.endpoints = s.endpoints) (hlog : s₁.log = s.log)
    (hdef : s₁.undefined = s.undefined) (hpool : ∀ q ∈ s₁.cQueue, q ∈ s.cQueue)
    (hold : ∀ q < s.allocated, s₁.heap q = s.heap q) (hnew : (s₁.heap p).storage = [])
    (hids : ∀ q < s₁.allocated, (s₁.heap q).id = id_)
    (hplaced : (∀ y, y ≠ .pool → y ≠ .var t k → (s₁.newVar t k p).held y = s.held y) →
      (s₁.newVar t k p).held (.var t k) = [p] →
      Placed (s₁.newVar t k p).held (· < s₁.allocated)) :
    Inv id_ receiver (s₁.newVar t k p) := by
  obtain ⟨hsent, hcarries, hlocks⟩ : (s.threads t).place.sent = none ∧
      (s.threads t).place.carries = [] ∧ (s.threads t).place.locks = [] := by
    rcases hplace with hp | hp <;> rw [hp] <;> exact ⟨rfl, rfl, rfl⟩
  have hthreads : (s₁.newVar t k p).threads = Function.update s.threads t { s.threads t with
      vars := Function.update (s.threads t).vars k (some ⟨p, false, true⟩)
      drafts := Function.update (s.threads t).drafts k []
      place := .user } := by
    rw [← hth]
    rfl
  have hself : (s₁.newVar t k p).held (.var t k) = [p] := by
    simp [System.held, hthreads, Thread.owns, Place.sent]
  have hheld : ∀ y, y ≠ .pool → y ≠ .var t k → (s₁.newVar t k p).held y = s.held y := by
    intro y hpool hy
    refine held_same hthreads (fun hyp => absurd hyp hpool) ?_ (fun _ => hcarries.symm) ?_
    · intro k' hk'
      have hne : k' ≠ k := by
        intro hkk
        exact hy (by rw [hk', hkk])
      simp [Thread.owns, hne, hsent, show Place.user.sent = none from rfl]
    · intro f _
      rw [show (s₁.newVar t k p).endpoints = s.endpoints from heps]
  refine ⟨hplaced hheld hself, ⟨hids, ?_, ?_⟩, ?_, ?_, ?_, hdef.trans h.defined⟩
  · intro y q msgs hq hx
    by_cases hy : y = .var t k
    · rw [hy, hself, List.mem_singleton] at hq
      have hx' : some [] = some msgs := by
        rw [← hx, hy]
        simp [System.expected, hthreads]
      rw [hq, ← Option.some.inj hx']
      exact hnew
    · have hq' : q ∈ s.held y := by
        by_cases hyp : y = .pool
        · rw [hyp] at hq ⊢
          exact hpool q hq
        · rwa [hheld y hyp hy] at hq
      have hsub : y ≠ .submit t := by
        intro hys
        rw [hys] at hq'
        simp only [System.held, hcarries] at hq'
        cases hq'
      rw [show (s₁.newVar t k p).heap = s₁.heap from rfl, hold q (h.placed.apart.live y q hq')]
      refine h.filled.stored y q msgs hq' ?_
      rw [← hx]
      refine (expected_same hthreads ?_ hsub).symm
      intro k' hk'
      have hne : k' ≠ k := by
        intro hkk
        exact hy (by rw [hk', hkk])
      simp [hne]
  · intro f
    rw [show (s₁.newVar t k p).endpoints = s.endpoints from heps,
      show (s₁.newVar t k p).heap = s₁.heap from rfl, left_congr (h.lined f) fun q hq => by
        rw [hold q (h.placed.apart.live (.queue f) q hq)]]
    exact h.filled.mail f
  · intro f
    rw [show (s₁.newVar t k p).endpoints = s.endpoints from heps]
    exact h.lined f
  · refine h.control hthreads (fun u _ f _ => ?_) (fun u _ f hm => ?_) (fun f _ hq => ?_) ?_
    · rw [show (s₁.newVar t k p).endpoints = s.endpoints from heps]
    · rwa [show (s₁.newVar t k p).endpoints = s.endpoints from heps] at hm
    · rw [show (s₁.newVar t k p).endpoints = s.endpoints from heps]
      exact hq
    · rw [show (s₁.newVar t k p).endpoints = s.endpoints from heps]
      exact (h.fits t).goto rfl hlocks.symm trivial
  · intro err herr
    exact h.quiet err (by rw [← hlog]; exact herr)

theorem Inv.get {k p : ℕ} (h : Inv id_ receiver s) (hplace : (s.threads t).place = .user)
    (hvar : (s.threads t).vars k = none) (hp : p ∈ s.cQueue) :
    Inv id_ receiver (({ s with cQueue := s.cQueue.erase p } : System ι).newVar t k p) := by
  refine h.fresh (.inl hplace) rfl rfl rfl rfl (fun q hq => List.mem_of_mem_erase hq)
    (fun q _ => rfl) (h.filled.stored .pool p [] hp rfl) h.filled.ids ?_
  intro hheld hself
  refine h.placed.move (i := .pool) (j := .var t k) (by simp) (List.perm_cons_erase hp) ?_ hheld
  rw [hself]
  simp [System.held, Thread.owns, hvar]

theorem Inv.create {k : ℕ} (h : Inv id_ receiver s) (hplace : (s.threads t).place = .creating k) :
    Inv id_ receiver (({ s with
      allocated := s.allocated + 1
      heap := Function.update s.heap s.allocated ⟨id_, []⟩ } : System ι).newVar t k
        s.allocated) := by
  have hvar : (s.threads t).vars k = none := by
    have hok := (h.fits t).ok
    rw [hplace] at hok
    exact hok
  have hold : ∀ q < s.allocated, Function.update s.heap s.allocated ⟨id_, []⟩ q = s.heap q :=
    fun q hq => Function.update_of_ne (Nat.ne_of_lt hq) _ _
  refine h.fresh (.inr hplace) rfl rfl rfl rfl (fun q hq => hq) hold
    (by simp only [Function.update_self]) ?_ ?_
  · intro q hq
    by_cases hqa : q = s.allocated
    · simp only [hqa, Function.update_self]
    · have hlt : q < s.allocated := Nat.lt_of_le_of_ne (Nat.lt_succ_iff.mp hq) hqa
      simp only [hold q hlt]
      exact h.filled.ids q hlt
  · intro hheld hself
    refine h.placed.new (a := s.allocated) (j := .var t k)
      (fun b => Nat.lt_succ_iff_lt_or_eq.trans or_comm) (Nat.lt_irrefl _) ?_ ?_
    · rw [hself]
      simp [System.held, Thread.owns, hvar]
    · intro y hy
      by_cases hyp : y = .pool
      · rw [hyp]
        rfl
      · exact hheld y hyp hy

theorem Inv.write {y : Spot ι} {p : ℕ} {storage : List Message} (h : Inv id_ receiver s)
    (hs' : s' = (s.setStorage p storage).setThread t w)
    (hyq : ∀ f, y ≠ .queue f) (hp : p ∈ s.held y)
    (howns : w.owns = (s.threads t).owns)
    (hcarries : w.place.carries = (s.threads t).place.carries)
    (hexpected : ∀ z, z ≠ y → ∀ msgs q, q ∈ s.held z → s'.expected z = some msgs →
      s.expected z = some msgs)
    (hstored : ∀ q msgs, q ∈ s.held y → s'.expected y = some msgs →
      q = p ∧ msgs = storage)
    (hfit : w.Fits receiver s.endpoints t) : Inv id_ receiver s' := by
  have hheld : s'.held = s.held := by
    rw [hs']
    exact held_of_thread (t := t) (w := w) rfl rfl howns hcarries fun _ => rfl
  have hheap : s'.heap = Function.update s.heap p { s.heap p with storage := storage } := by
    rw [hs']
    rfl
  have hother : ∀ z q, z ≠ y → q ∈ s.held z → s'.heap q = s.heap q := by
    intro z q hz hq
    rw [hheap]
    exact h.write_other hp hq hz
  have heps : s'.endpoints = s.endpoints := by rw [hs']; rfl
  refine ⟨?_, ⟨?_, ?_, ?_⟩, ?_, ?_, ?_, ?_⟩
  · rw [hheld, show s'.allocated = s.allocated by rw [hs']; rfl]
    exact h.placed
  · intro q hq
    have hq' : q < s.allocated := by
      rw [hs'] at hq
      exact hq
    rw [hheap]
    by_cases hqp : q = p
    · rw [hqp, Function.update_self]
      exact h.filled.ids p (hqp ▸ hq')
    · rw [Function.update_of_ne hqp]
      exact h.filled.ids q hq'
  · intro z q msgs hq hx
    rw [hheld] at hq
    by_cases hz : z = y
    · rw [hz] at hq hx
      obtain ⟨hqp, hmsgs⟩ := hstored q msgs hq hx
      rw [hheap, hqp, Function.update_self, hmsgs]
    · rw [hother z q hz hq]
      exact h.filled.stored z q msgs hq (hexpected z hz msgs q hq hx)
  · intro f
    rw [heps, left_congr (h.lined f) fun q hq => by rw [hother (.queue f) q (hyq f).symm hq]]
    exact h.filled.mail f
  · rw [heps]
    exact h.lined
  · refine h.control (t := t) (w := w) (by rw [hs']; rfl) (fun u _ f _ => ?_)
      (fun u _ f hm => ?_) (fun f _ hq => ?_) ?_
    · rw [heps]
    · rwa [heps] at hm
    · rw [heps]
      exact hq
    · rw [heps]
      exact hfit
  · intro err herr
    rw [hs'] at herr
    exact h.quiet err herr
  · rw [hs']
    exact h.defined

theorem Inv.push_back {k : ℕ} {msg : Message} {mq : MessageQueue} (h : Inv id_ receiver s)
    (hplace : (s.threads t).place = .pushing k msg) (hvar : (s.threads t).vars k = some mq) :
    Inv id_ receiver ((s.setStorage mq.pStorage_
      ((s.heap mq.pStorage_).storage ++ [msg])).setThread t { s.threads t with
        drafts := Function.update (s.threads t).drafts k ((s.threads t).drafts k ++ [msg])
        place := .user }) := by
  have hsent : (s.threads t).place.sent = none := by rw [hplace]; rfl
  have hcarries : (s.threads t).place.carries = [] := by rw [hplace]; rfl
  have hv : mq.valid_ = true := by
    have hok := (h.fits t).ok
    rw [hplace] at hok
    obtain ⟨mq', hmq', hv⟩ := hok
    rw [hvar] at hmq'
    rw [Option.some.inj hmq']
    exact hv
  have hown : s.held (.var t k) = [mq.pStorage_] := by
    simp [System.held, Thread.owns, hvar, hv, hsent]
  have hmem : mq.pStorage_ ∈ s.held (.var t k) := by rw [hown]; exact List.mem_singleton_self _
  refine h.write (y := .var t k) rfl (by simp) hmem ?_ hcarries.symm ?_ ?_
    ((h.fits t).goto rfl (by rw [hplace]; rfl) trivial)
  · funext k'
    simp [Thread.owns, hsent, show Place.user.sent = none from rfl]
  · intro z hz msgs q hq hx
    rw [← hx]
    refine (expected_same (t := t) rfl ?_ ?_).symm
    · intro k' hk'
      have hne : k' ≠ k := by
        intro hkk
        exact hz (by rw [hk', hkk])
      exact Function.update_of_ne hne _ _
    · intro hzs
      rw [hzs] at hq
      simp only [System.held, hcarries] at hq
      cases hq
  · intro q msgs hq hx
    rw [hown, List.mem_singleton] at hq
    refine ⟨hq, ?_⟩
    simp only [System.expected, System.setThread, Function.update_self, Option.some.injEq] at hx
    rw [← hx, h.filled.stored (.var t k) mq.pStorage_ _ hmem rfl]

theorem Inv.cleared {p : ℕ} (h : Inv id_ receiver s)
    (hplace : (s.threads t).place = .clearing e p) :
    Inv id_ receiver ((s.setStorage p []).goto t (.enqueuing e p)) := by
  have hsent : (s.threads t).place.sent = none := by rw [hplace]; rfl
  have hheld : s.held (.submit t) = [p] := by
    simp only [System.held, hplace]
    rfl
  have hok := (h.fits t).ok
  rw [hplace] at hok
  refine h.write (y := .submit t) rfl (by simp) (by rw [hheld]; exact List.mem_singleton_self p) ?_
    (by rw [hplace]; rfl) ?_ ?_ ((h.fits t).goto rfl (by rw [hplace]; rfl) hok)
  · funext k'
    simp [Thread.owns, System.setStorage, hsent, show (Place.enqueuing e p).sent = none from rfl]
  · intro z hz msgs q hq hx
    rw [← hx]
    exact (expected_same (t := t) (w := { s.threads t with place := .enqueuing e p }) rfl
      (fun _ _ => rfl) hz).symm
  · intro q msgs hq hx
    rw [hheld, List.mem_singleton] at hq
    refine ⟨hq, ?_⟩
    simp only [System.expected, System.goto, System.setThread, Function.update_self,
      Option.some.injEq] at hx
    exact hx.symm

theorem Inv.hand {y z : Spot ι} {p : ℕ} (h : Inv id_ receiver s)
    (hs' : s' = { (s.setEndpoint e x).setThread t w with cQueue := s'.cQueue })
    (hyz : y ≠ z) (hy : (s.held y).Perm (p :: s'.held y)) (hz : (s'.held z).Perm (p :: s.held z))
    (hothers : ∀ v, v ≠ y → v ≠ z → s'.held v = s.held v)
    (hstored : ∀ v q msgs, q ∈ s'.held v → s'.expected v = some msgs →
      (s.heap q).storage = msgs)
    (hm : (s.endpoints e).mtx_ = some t) (hxm : x.mtx_ = some t) (hx : x.Lined)
    (hne : receiver e ≠ t → (s.endpoints e).queue_ ≠ [] → x.queue_ ≠ [])
    (hmail : x.received ++ deliverable (x.left s.heap) = deliverable x.accepted.flatten)
    (hfit : w.Fits receiver (Function.update s.endpoints e x) t) : Inv id_ receiver s' := by
  have heps : s'.endpoints = Function.update s.endpoints e x := by rw [hs']; rfl
  have hheap : s'.heap = s.heap := by rw [hs']; rfl
  have halloc : s'.allocated = s.allocated := by rw [hs']; rfl
  refine ⟨?_, ⟨?_, ?_, ?_⟩, ?_, ?_, ?_, ?_⟩
  · rw [halloc]
    exact h.placed.move hyz hy hz hothers
  · rw [halloc, hheap]
    exact h.filled.ids
  · intro v q msgs hq hv
    rw [hheap]
    exact hstored v q msgs hq hv
  · intro f
    rw [heps, hheap]
    by_cases hf : f = e
    · rw [hf, Function.update_self]
      exact hmail
    · rw [Function.update_of_ne hf]
      exact h.filled.mail f
  · intro f
    rw [heps]
    by_cases hf : f = e
    · rw [hf, Function.update_self]
      exact hx
    · rw [Function.update_of_ne hf]
      exact h.lined f
  · refine h.control (t := t) (w := w) (by rw [hs']; rfl) ?_ ?_ ?_ (by rw [heps]; exact hfit)
    · intro u hu f hf
      rw [heps]
      exact h.others_same (.inr hm) hu hf
    · intro u hu f hf
      rw [heps] at hf
      exact others_mtx (.inr hxm) hu hf
    · intro f hr hq
      rw [heps]
      by_cases hf : f = e
      · rw [hf, Function.update_self]
        rw [hf] at hr hq
        exact hne hr hq
      · rw [Function.update_of_ne hf]
        exact hq
  · intro err herr
    rw [hs'] at herr
    exact h.quiet err herr
  · rw [hs']
    exact h.defined

theorem Inv.queued {k : ℕ} {mq : MessageQueue} (h : Inv id_ receiver s)
    (hplace : (s.threads t).place = .queueing k e) (hvar : (s.threads t).vars k = some mq) :
    Inv id_ receiver ((s.setEndpoint e { s.endpoints e with
      queue_ := (s.endpoints e).queue_ ++ [mq]
      accepted := (s.endpoints e).accepted ++ [(s.threads t).drafts k] }).goto t
        (.notifying k e)) := by
  have hsent : (s.threads t).place.sent = none := by rw [hplace]; rfl
  have hcarries : (s.threads t).place.carries = [] := by rw [hplace]; rfl
  have hlocks : (s.threads t).place.locks = [e] := by rw [hplace]; rfl
  have hok := (h.fits t).ok
  rw [hplace] at hok
  obtain ⟨⟨mq', hmq', hv, hsealed⟩, hpassed⟩ := hok
  have hmq : mq' = mq := by
    rw [hvar] at hmq'
    exact (Option.some.inj hmq').symm
  rw [hmq] at hv hsealed
  have hown : s.held (.var t k) = [mq.pStorage_] := by
    simp [System.held, Thread.owns, hvar, hv, hsent]
  have hm : (s.endpoints e).mtx_ = some t := (h.fits t).has_locked hlocks
  have hstorage : (s.heap mq.pStorage_).storage = (s.threads t).drafts k :=
    h.filled.stored (.var t k) mq.pStorage_ _ (by rw [hown]; exact List.mem_singleton_self _) rfl
  set x : MailboxEndpoint ι := { s.endpoints e with
      queue_ := (s.endpoints e).queue_ ++ [mq]
      accepted := (s.endpoints e).accepted ++ [(s.threads t).drafts k] } with hx
  have hholds : x.holds = (s.endpoints e).holds ++ [mq.pStorage_] := by
    simp [hx, MailboxEndpoint.holds, List.filter_append, hv]
  set s' := (s.setEndpoint e x).goto t (.notifying k e) with hs'
  have hown' : s'.held (.var t k) = [] := by
    simp [hs', System.held, Thread.owns, System.goto, System.setThread, System.setEndpoint, hvar,
      Place.sent]
  have hqueue : s'.held (.queue e) = x.holds := by
    simp only [System.held, hs', System.goto, System.setThread, System.setEndpoint,
      Function.update_self]
  have hothers : ∀ v, v ≠ .var t k → v ≠ .queue e → s'.held v = s.held v := by
    intro v hnv hne
    refine held_same (t := t) (w := { s.threads t with place := .notifying k e }) rfl
      (fun _ => rfl) ?_ (fun _ => hcarries.symm) ?_
    · intro k' hk'
      have hk : k ≠ k' := by
        intro hk
        exact hnv (by rw [hk', hk])
      simp [Thread.owns, hsent, show (Place.notifying k e).sent = some k from rfl, hk]
    · intro f hf
      have hfe : f ≠ e := by
        intro hfe
        exact hne (by rw [hf, hfe])
      simp only [hs', System.goto, System.setThread, System.setEndpoint,
        Function.update_of_ne hfe]
  refine h.hand (y := .var t k) (z := .queue e) (p := mq.pStorage_) (x := x)
    (w := { s.threads t with place := .notifying k e }) rfl (by simp) ?_ ?_ hothers ?_ hm
    hm ?_ ?_ ?_ ?_
  · rw [hown, hown']
  · rw [hqueue, hholds]
    exact List.perm_append_singleton _ _
  · intro v q msgs hq hexp
    have hne : v ≠ .queue e := by
      intro hve
      rw [hve] at hexp
      cases hexp
    have hnv : v ≠ .var t k := by
      intro hve
      rw [hve, hown'] at hq
      cases hq
    rw [hothers v hnv hne] at hq
    refine h.filled.stored v q msgs hq ?_
    rw [← hexp]
    refine (expected_same (t := t) (w := { s.threads t with place := .notifying k e }) rfl
      (fun _ _ => rfl) ?_).symm
    intro hvs
    rw [hvs] at hq
    simp only [System.held, hcarries] at hq
    cases hq
  · exact (h.lined e).append hpassed hv hsealed rfl rfl rfl
  · intro _ _
    simp [hx]
  · have hleft : x.left s.heap = (s.endpoints e).left s.heap ++ (s.heap mq.pStorage_).storage :=
      left_append hpassed rfl rfl
    have hmail := h.filled.mail e
    rw [hleft, hstorage]
    simp only [hx, deliverable, List.filter_append, List.flatten_append] at hmail ⊢
    rw [← List.append_assoc, hmail]
    simp
  · refine (h.fits t).goAt rfl ((h.fits t).not_call hlocks) (by simp [hlocks]) (.inl ⟨rfl, hm⟩) ?_
    refine ⟨?_, ?_⟩
    · rw [hvar]
      rfl
    · rw [Function.update_self]
      exact hpassed

theorem Inv.released {i : ℕ} {mq : MessageQueue} {mqs : List MessageQueue}
    (h : Inv id_ receiver s) (hplace : (s.threads t).place = .pumping e i)
    (hq : (s.endpoints e).queue_ = mq :: mqs)
    (hend : (s.heap mq.pStorage_).storage[i]? = none) :
    Inv id_ receiver (s.submit id_ t e mq mqs) := by
  have hsent : (s.threads t).place.sent = none := by rw [hplace]; rfl
  have hcarries : (s.threads t).place.carries = [] := by rw [hplace]; rfl
  have hlocks : (s.threads t).place.locks = [e] := by rw [hplace]; rfl
  have hm : (s.endpoints e).mtx_ = some t := (h.fits t).has_locked hlocks
  have hok := (h.fits t).ok
  rw [hplace] at hok
  obtain ⟨hrecv, -, hpassed⟩ := hok
  obtain ⟨hv, hvs⟩ := (h.lined e).first mq mqs hq
  rw [hpassed] at hv
  have hv : mq.valid_ = true := hv
  have hholds : (s.endpoints e).holds = mq.pStorage_ :: mqs.map MessageQueue.pStorage_ := by
    simp [MailboxEndpoint.holds, hq, hv, List.filter_eq_self.mpr hvs]
  have hid : (s.heap mq.pStorage_).id = id_ := by
    refine h.filled.ids _ (h.placed.apart.live (.queue e) _ ?_)
    simp only [System.held, hholds]
    exact List.mem_cons_self
  set x : MailboxEndpoint ι := { s.endpoints e with
      queue_ := { mq with valid_ := false } :: mqs, passed := none } with hx
  have hs' : s.submit id_ t e mq mqs = (s.setEndpoint e x).goto t (.clearing e mq.pStorage_) := by
    unfold System.submit
    simp only [hv, Bool.not_true, Bool.false_eq_true, if_false]
    exact if_neg (not_not_intro hid)
  have hholds' : x.holds = mqs.map MessageQueue.pStorage_ := by
    simp [MailboxEndpoint.holds, hx, List.filter_eq_self.mpr hvs]
  rw [hs']
  set s' := (s.setEndpoint e x).goto t (.clearing e mq.pStorage_) with hs'
  have hqueue : s'.held (.queue e) = x.holds := by
    simp only [System.held, hs', System.goto, System.setThread, System.setEndpoint,
      Function.update_self]
  have hsubmit : s'.held (.submit t) = [mq.pStorage_] := by
    simp only [System.held, hs', System.goto, System.setThread, Function.update_self]
    rfl
  have hothers : ∀ v, v ≠ .queue e → v ≠ .submit t → s'.held v = s.held v := by
    intro v hnq hns
    refine held_same (t := t) (w := { s.threads t with place := .clearing e mq.pStorage_ }) rfl
      (fun _ => rfl) (fun k _ => by rw [owns_same hsent]) (fun hv => absurd hv hns) ?_
    intro f hf
    have hfe : f ≠ e := by
      intro hfe
      exact hnq (by rw [hf, hfe])
    simp only [hs', System.goto, System.setThread, System.setEndpoint, Function.update_of_ne hfe]
  refine h.hand (y := .queue e) (z := .submit t) (p := mq.pStorage_) (x := x)
    (w := { s.threads t with place := .clearing e mq.pStorage_ }) rfl (by simp) ?_ ?_ hothers ?_ hm
    hm ?_ ?_ ?_ ?_
  · rw [hqueue, hholds']
    simp only [System.held, hholds]
    exact List.Perm.refl _
  · rw [hsubmit]
    simp only [System.held, hcarries]
    exact List.Perm.refl _
  · intro v q msgs hqv hexp
    have hnq : v ≠ .queue e := by
      intro hve
      rw [hve] at hexp
      cases hexp
    have hns : v ≠ .submit t := by
      intro hve
      rw [hve] at hexp
      simp only [System.expected, hs', System.goto, System.setThread, Function.update_self] at hexp
      cases hexp
    rw [hothers v hnq hns] at hqv
    refine h.filled.stored v q msgs hqv ?_
    rw [← hexp]
    exact (expected_same (t := t) (w := { s.threads t with place := .clearing e mq.pStorage_ }) rfl
      (fun _ _ => rfl) hns).symm
  · refine ⟨fun hfree => ?_, ?_, by simp [hx], ?_⟩
    · rw [show x.mtx_ = (s.endpoints e).mtx_ from rfl, hm] at hfree
      cases hfree
    · intro mq' hmq'
      rcases List.mem_cons.mp hmq' with hmq' | hmq'
      · rw [hmq']
        exact (h.lined e).allSealed mq (by rw [hq]; exact List.mem_cons_self)
      · exact (h.lined e).allSealed mq' (by rw [hq]; exact List.mem_cons_of_mem _ hmq')
    · intro mq' mqs' hq'
      obtain ⟨rfl, rfl⟩ := List.cons.inj hq'
      exact ⟨rfl, hvs⟩
  · intro _ _
    simp [hx]
  · have hdrop : (s.heap mq.pStorage_).storage.drop i = [] :=
      List.drop_eq_nil_of_le (List.getElem?_eq_none_iff.mp hend)
    have hmail := h.filled.mail e
    simp only [MailboxEndpoint.left, hq, hpassed, hdrop, List.nil_append] at hmail
    exact hmail
  · refine (h.fits t).goAt rfl ((h.fits t).not_call hlocks) (by simp [hlocks]) (.inl ⟨rfl, hm⟩) ?_
    simp [Place.Ok, hx, hrecv]

theorem Inv.enqueued {p : ℕ} (h : Inv id_ receiver s)
    (hplace : (s.threads t).place = .enqueuing e p) :
    Inv id_ receiver (({ s with cQueue := s.cQueue ++ [p] } : System ι).goto t (.popping e)) := by
  have hsent : (s.threads t).place.sent = none := by rw [hplace]; rfl
  have hlocks : (s.threads t).place.locks = [e] := by rw [hplace]; rfl
  have hheld : s.held (.submit t) = [p] := by
    simp only [System.held, hplace]
    rfl
  have hm : (s.endpoints e).mtx_ = some t := (h.fits t).has_locked hlocks
  have hok := (h.fits t).ok
  rw [hplace] at hok
  have hstorage : (s.heap p).storage = [] := by
    refine h.filled.stored (.submit t) p [] (by rw [hheld]; exact List.mem_singleton_self p) ?_
    simp only [System.expected, hplace]
  set s' := ({ s with cQueue := s.cQueue ++ [p] } : System ι).goto t (.popping e) with hs'
  have hsubmit : s'.held (.submit t) = [] := by
    simp only [System.held, hs', System.goto, System.setThread, Function.update_self]
    rfl
  have hothers : ∀ v, v ≠ .submit t → v ≠ .pool → s'.held v = s.held v := by
    intro v hns hnp
    exact held_same (t := t) (w := { s.threads t with place := .popping e }) rfl
      (fun hv => absurd hv hnp) (fun k _ => by rw [owns_same hsent]) (fun hv => absurd hv hns)
      fun f _ => rfl
  refine h.hand (e := e) (y := .submit t) (z := .pool) (p := p) (x := s.endpoints e)
    (w := { s.threads t with place := .popping e }) ?_ (by simp) ?_ ?_ hothers ?_ hm hm
    (h.lined e) (fun _ hne => hne) (h.filled.mail e) ?_
  · simp [hs', System.goto, System.setThread, System.setEndpoint]
  · rw [hheld, hsubmit]
  · exact List.perm_append_singleton _ _
  · intro v q msgs hqv hexp
    have hns : v ≠ .submit t := by
      intro hve
      rw [hve, hsubmit] at hqv
      cases hqv
    by_cases hnp : v = .pool
    · rw [hnp] at hqv hexp
      rw [← Option.some.inj hexp]
      rcases List.mem_append.mp hqv with hqv | hqv
      · exact h.filled.stored .pool q [] hqv rfl
      · rw [List.mem_singleton.mp hqv]
        exact hstorage
    · rw [hothers v hns hnp] at hqv
      refine h.filled.stored v q msgs hqv ?_
      rw [← hexp]
      exact (expected_same (t := t) (w := { s.threads t with place := .popping e }) rfl
        (fun _ _ => rfl) hns).symm
  · rw [Function.update_eq_self]
    exact (h.fits t).goto rfl hlocks.symm hok

/-! ### Runs -/

theorem Inv.passed {i : ℕ} {mq : MessageQueue} {mqs : List MessageQueue} {msg : Message}
    (h : Inv id_ receiver s) (hplace : (s.threads t).place = .pumping e i)
    (hq : (s.endpoints e).queue_ = mq :: mqs)
    (hmsg : (s.heap mq.pStorage_).storage[i]? = some msg)
    (hs' : s' = { (s.pass e i msg).setThread t w with log := s'.log })
    (hlog : ∀ err ∈ s'.log, err ∈ s.log ∨ internal err = false)
    (hvars : w.vars = (s.threads t).vars) (hdrafts : w.drafts = (s.threads t).drafts)
    (hw : w.calls = (s.threads t).calls ∧ w.place = .pumping e (i + 1) ∨
      w.calls = (e, i) :: (s.threads t).calls ∧ w.place = .user) : Inv id_ receiver s' := by
  have hsent : (s.threads t).place.sent = none := by rw [hplace]; rfl
  have hcarries : (s.threads t).place.carries = [] := by rw [hplace]; rfl
  have hlocks : (s.threads t).place.locks = [e] := by rw [hplace]; rfl
  have hm : (s.endpoints e).mtx_ = some t := (h.fits t).has_locked hlocks
  have hok := (h.fits t).ok
  rw [hplace] at hok
  obtain ⟨hrecv, hne, hpassed⟩ := hok
  have hsent' : w.place.sent = none ∧ w.place.carries = [] := by
    rcases hw with ⟨-, hw⟩ | ⟨-, hw⟩ <;> rw [hw] <;> exact ⟨rfl, rfl⟩
  have howns : w.owns = (s.threads t).owns := by
    funext k
    simp only [Thread.owns, hvars, hsent'.1, hsent]
  set x : MailboxEndpoint ι := { s.endpoints e with
    received := (s.endpoints e).received ++ (if msg.type.deliverable then [msg] else [])
    passed := some (i + 1) } with hx
  refine h.at (e := e) (x := x) hs' hlog howns hdrafts hcarries hsent'.2 (.inr hm) (.inr hm) ?_
    (fun _ hq => hq) rfl ?_ ?_
  · refine ⟨fun hfree => ?_, (h.lined e).allSealed, fun hempty => absurd hempty hne, ?_⟩
    · rw [show x.mtx_ = (s.endpoints e).mtx_ from rfl, hm] at hfree
      cases hfree
    · intro mq' mqs' hq'
      obtain ⟨hv, hvs⟩ := (h.lined e).first mq' mqs' hq'
      rw [hpassed] at hv
      exact ⟨hv, hvs⟩
  · obtain ⟨hlt, hget⟩ := List.getElem?_eq_some_iff.mp hmsg
    have hdrop := List.drop_eq_getElem_cons hlt
    rw [hget] at hdrop
    have hmail := h.filled.mail e
    simp only [MailboxEndpoint.left, hq, hpassed, hdrop, List.cons_append] at hmail
    rw [show x.accepted = (s.endpoints e).accepted from rfl, ← hmail]
    simp only [MailboxEndpoint.left, hx, hq, deliverable, List.filter_cons]
    split <;> simp
  · rcases hw with ⟨hcalls, hpl⟩ | ⟨hcalls, hpl⟩
    · refine (h.fits t).goAt hcalls ((h.fits t).not_call hlocks) (by simp [hlocks])
        (.inl ⟨by rw [hpl]; rfl, hm⟩) ?_
      rw [hpl]
      simp [Place.Ok, hx, hrecv, hne]
    · have hnot := (h.fits t).not_call hlocks
      have hwl : w.locks = (s.threads t).locks := by
        rw [Thread.locks, Thread.locks, hpl, hcalls, hlocks]
        rfl
      refine ⟨hwl ▸ (h.fits t).nodup, ?_, ?_, by rw [hpl]; trivial⟩
      · intro f
        rw [hwl, (h.fits t).owner f]
        by_cases hfe : f = e
        · rw [hfe, Function.update_self]
        · rw [Function.update_of_ne hfe]
      · intro c hc
        rw [hcalls] at hc
        rcases List.mem_cons.mp hc with hc | hc
        · rw [hc, Function.update_self]
          exact ⟨hrecv, hne, rfl⟩
        · have hce : c.1 ≠ e := by
            intro hce
            exact hnot (hce ▸ List.mem_map_of_mem hc)
          rw [Function.update_of_ne hce]
          exact (h.fits t).calls c hc

theorem Inv.pump {i : ℕ} {found : Bool} (h : Inv id_ receiver s)
    (hplace : (s.threads t).place = .pumping e i) : Inv id_ receiver (s.pump id_ t e i found) := by
  have hok := (h.fits t).ok
  rw [hplace] at hok
  cases hq : (s.endpoints e).queue_ with
  | nil => exact absurd hq hok.2.1
  | cons mq mqs =>
    cases hmsg : (s.heap mq.pStorage_).storage[i]? with
    | none =>
      simp only [System.pump, hq, hmsg]
      exact h.released hplace hq hmsg
    | some msg =>
      have hreport : ∀ err : Error, internal err = false →
          ∀ err' ∈ s.log ++ [err], err' ∈ s.log ∨ internal err' = false := by
        intro err herr err' herr'
        rcases List.mem_append.mp herr' with herr' | herr'
        · exact .inl herr'
        · rw [List.mem_singleton.mp herr']
          exact .inr herr
      simp only [System.pump, hq, hmsg]
      split
      · split
        · exact h.passed hplace hq hmsg rfl (fun err herr => .inl herr) rfl rfl (.inr ⟨rfl, rfl⟩)
        · exact h.passed (w := { s.threads t with place := .pumping e (i + 1) }) hplace hq hmsg rfl
            (hreport _ rfl) rfl rfl (.inl ⟨rfl, rfl⟩)
      · split
        · exact h.passed (w := { s.threads t with place := .pumping e (i + 1) }) hplace hq hmsg rfl
            (fun err herr => .inl herr) rfl rfl (.inl ⟨rfl, rfl⟩)
        · exact h.passed (w := { s.threads t with place := .pumping e (i + 1) }) hplace hq hmsg rfl
            (hreport _ rfl) rfl rfl (.inl ⟨rfl, rfl⟩)

theorem Inv.take (h : Inv id_ receiver s) (hplace : (s.threads t).place = .taking e) :
    Inv id_ receiver (s.take id_ t e) := by
  have hok := (h.fits t).ok
  rw [hplace] at hok
  obtain ⟨hrecv, hne, hpassed⟩ := hok
  cases hq : (s.endpoints e).queue_ with
  | nil => exact absurd hq hne
  | cons mq mqs =>
    obtain ⟨hv, -⟩ := (h.lined e).first mq mqs hq
    rw [hpassed] at hv
    have hv : mq.valid_ = true := hv
    have hsealed := (h.lined e).allSealed mq (by rw [hq]; exact List.mem_cons_self)
    simp only [System.take, hq, hv, hsealed, Bool.not_true, Bool.false_eq_true, if_false]
    exact h.move rfl (fun err herr => .inl herr) (owns_same (by rw [hplace]; rfl)) rfl
      (by rw [hplace]; rfl) rfl
      ((h.fits t).goto rfl (by rw [hplace]; rfl) ⟨hrecv, by rw [hq]; simp, hpassed⟩)

theorem Inv.popped {mq : MessageQueue} {mqs : List MessageQueue} (h : Inv id_ receiver s)
    (hplace : (s.threads t).place = .popping e) (hq : (s.endpoints e).queue_ = mq :: mqs) :
    Inv id_ receiver ((s.setEndpoint e { s.endpoints e with
      queue_ := mqs, passed := some 0 }).goto t (.unlocking e)) := by
  have hlocks : (s.threads t).place.locks = [e] := by rw [hplace]; rfl
  have hm : (s.endpoints e).mtx_ = some t := (h.fits t).has_locked hlocks
  have hok := (h.fits t).ok
  rw [hplace] at hok
  obtain ⟨hrecv, -, hpassed⟩ := hok
  obtain ⟨hv, hvs⟩ := (h.lined e).first mq mqs hq
  rw [hpassed] at hv
  have hv : mq.valid_ = false := hv
  refine h.at (e := e) (x := { s.endpoints e with queue_ := mqs, passed := some 0 })
    (w := { s.threads t with place := .unlocking e }) rfl (fun err herr => .inl herr)
    (owns_same (by rw [hplace]; rfl)) rfl (by rw [hplace]; rfl) rfl (.inr hm) (.inr hm)
    ?_ ?_ ?_ ?_ ?_
  · refine ⟨fun _ => rfl, ?_, fun _ => rfl, ?_⟩
    · intro mq' hmq'
      exact (h.lined e).allSealed mq' (by rw [hq]; exact List.mem_cons_of_mem _ hmq')
    · intro mq' mqs' hq'
      have hq' : mqs = mq' :: mqs' := hq'
      rw [hq', List.forall_mem_cons] at hvs
      exact hvs
  · intro hr
    exact absurd hrecv hr
  · simp [MailboxEndpoint.holds, hq, hv]
  · have hmail := h.filled.mail e
    simp only [MailboxEndpoint.left, hq, hpassed] at hmail
    rw [← hmail]
    cases mqs with
    | nil => rfl
    | cons a as => rfl
  · refine (h.fits t).goAt rfl ((h.fits t).not_call hlocks) (by simp [hlocks]) (.inl ⟨rfl, hm⟩) ?_
    simp [Place.Ok, hrecv]

theorem Inv.returned {i : ℕ} {calls : List (ℕ × ℕ)} (h : Inv id_ receiver s)
    (hplace : (s.threads t).place = .user) (hcalls : (s.threads t).calls = (e, i) :: calls) :
    Inv id_ receiver (s.setThread t { s.threads t with
      calls := calls, place := .pumping e (i + 1) }) := by
  have hl : Thread.locks { s.threads t with calls := calls, place := .pumping e (i + 1) } =
      (s.threads t).locks := by
    rw [Thread.locks, Thread.locks, hplace, hcalls]
    rfl
  have hmem : (e, i) ∈ (s.threads t).calls := by
    rw [hcalls]
    exact List.mem_cons_self
  refine h.move rfl (fun err herr => .inl herr) ?_ rfl (by rw [hplace]; rfl) rfl ?_
  · funext k
    simp only [Thread.owns, hplace]
    rfl
  · refine ⟨hl ▸ (h.fits t).nodup, hl ▸ (h.fits t).owner, ?_,
      (h.fits t).calls _ hmem⟩
    intro c hc
    exact (h.fits t).calls c (by rw [hcalls]; exact List.mem_cons_of_mem _ hc)

theorem Inv.marked {k : ℕ} {mq : MessageQueue} (h : Inv id_ receiver s)
    (hplace : (s.threads t).place = .marking k) (hvar : (s.threads t).vars k = some mq) :
    Inv id_ receiver ((s.setVar t k { mq with valid_ := false }).goto t .user) := by
  refine h.move (t := t) (w := { s.threads t with
      vars := Function.update (s.threads t).vars k (some { mq with valid_ := false })
      place := .user }) ?_ (fun err herr => .inl herr) ?_ rfl
    (by rw [hplace]; rfl) rfl ((h.fits t).goto rfl (by rw [hplace]; rfl) trivial)
  · simp [System.setVar, System.goto, System.setThread]
  · have hsent : (s.threads t).place.sent = some k := by rw [hplace]; rfl
    funext k'
    by_cases hk : k' = k
    · simp [Thread.owns, hk, hvar, hsent]
    · simp [Thread.owns, hk, hsent, Ne.symm hk, show Place.user.sent = none from rfl]

theorem Inv.go {found : Bool} (h : Inv id_ receiver s) (hs : s.go id_ t found = some s') :
    Inv id_ receiver s' := by
  have hok := (h.fits t).ok
  unfold System.go at hs
  cases hp : (s.threads t).place with
  | user =>
    simp only [hp] at hs
    cases hc : (s.threads t).calls with
    | nil =>
      rw [hc] at hs
      cases hs
    | cons c calls =>
      rw [hc] at hs
      cases hs
      exact h.returned hp hc
  | counting k =>
    simp only [hp] at hs
    cases hs
    rw [hp] at hok
    exact h.move (w := { s.threads t with place := .creating k }) rfl (fun err herr => .inl herr)
      (owns_same (by rw [hp]; rfl)) rfl (by rw [hp]; rfl) rfl
      ((h.fits t).goto rfl (by rw [hp]; rfl) hok)
  | creating k =>
    simp only [hp] at hs
    cases hs
    exact h.create hp
  | pushing k msg =>
    simp only [hp] at hs
    split at hs
    · cases hs
    · rename_i mq hvar
      cases hs
      exact h.push_back hp hvar
  | sending k e =>
    simp only [hp] at hs
    rw [hp] at hok
    exact h.acquire hs (by rw [hp]; rfl) (by rw [hp]; rfl) rfl (by rw [hp]; rfl) rfl fun hpassed =>
      ⟨hok, by rw [Function.update_self]; exact hpassed⟩
  | queueing k e =>
    simp only [hp] at hs
    split at hs
    · cases hs
    · rename_i mq hvar
      cases hs
      exact h.queued hp hvar
  | notifying k e =>
    simp only [hp] at hs
    cases hs
    rw [hp] at hok
    exact h.unlock (by rw [hp]; rfl) (by rw [hp]; rfl) (by rw [hp]; rfl) rfl rfl hok.2 hok.1
  | marking k =>
    simp only [hp] at hs
    split at hs
    · cases hs
    · rename_i mq hvar
      cases hs
      exact h.marked hp hvar
  | blocking e =>
    simp only [hp] at hs
    rw [hp] at hok
    split at hs
    · cases hs
    · refine h.acquire hs (by rw [hp]; rfl) (by rw [hp]; rfl) rfl (by rw [hp]; rfl) rfl ?_
      exact fun hpassed => ⟨hok, by rw [Function.update_self]; exact hpassed⟩
  | woken e =>
    simp only [hp] at hs
    cases hs
    rw [hp] at hok
    exact h.unlock (by rw [hp]; rfl) (by rw [hp]; rfl) (by rw [hp]; rfl) rfl rfl hok.2 hok.1
  | looping e =>
    simp only [hp] at hs
    cases hs
    rw [hp] at hok
    by_cases hq : (s.endpoints e).queue_ = []
    · rw [if_pos hq]
      exact h.move (w := { s.threads t with place := .user }) rfl (fun err herr => .inl herr)
        (owns_same (by rw [hp]; rfl)) rfl (by rw [hp]; rfl) rfl
        ((h.fits t).goto rfl (by rw [hp]; rfl) trivial)
    · rw [if_neg hq]
      exact h.move (w := { s.threads t with place := .locking e }) rfl (fun err herr => .inl herr)
        (owns_same (by rw [hp]; rfl)) rfl (by rw [hp]; rfl) rfl
        ((h.fits t).goto rfl (by rw [hp]; rfl) ⟨hok, hq⟩)
  | locking e =>
    simp only [hp] at hs
    rw [hp] at hok
    refine h.acquire hs (by rw [hp]; rfl) (by rw [hp]; rfl) rfl (by rw [hp]; rfl) rfl ?_
    intro hpassed
    simp only [Place.Ok, Function.update_self]
    exact ⟨hok.1, hok.2, hpassed⟩
  | taking e =>
    simp only [hp] at hs
    cases hs
    exact h.take hp
  | pumping e i =>
    simp only [hp] at hs
    cases hs
    exact h.pump hp
  | clearing e p =>
    simp only [hp] at hs
    cases hs
    exact h.cleared hp
  | enqueuing e p =>
    simp only [hp] at hs
    cases hs
    exact h.enqueued hp
  | popping e =>
    simp only [hp] at hs
    rw [hp] at hok
    split at hs
    · rename_i hq
      exact absurd hq hok.2.1
    · rename_i mq mqs hq
      cases hs
      exact h.popped hp hq
  | unlocking e =>
    simp only [hp] at hs
    cases hs
    rw [hp] at hok
    exact h.unlock (by rw [hp]; rfl) (by rw [hp]; rfl) (by rw [hp]; rfl) rfl rfl hok.2 hok.1

/-- Each endpoint is received by one thread. -/
def OneReceiver (receiver : ℕ → ι) : Label ι → Prop
  | .recv t e _ => receiver e = t
  | _ => True

theorem Inv.step {l : Label ι} (h : Inv id_ receiver s) (hok : OneReceiver receiver l)
    (hs : System.Step id_ s l s') : Inv id_ receiver s' := by
  unfold System.Step System.step at hs
  cases l with
  | get t k pick =>
    simp only at hs
    split at hs
    · rename_i hp hvar
      cases pick with
      | none =>
        cases hs
        exact h.move (w := { s.threads t with place := .counting k }) rfl
          (fun err herr => .inl herr) (owns_same (by rw [hp]; rfl)) rfl (by rw [hp]; rfl) rfl
          ((h.fits t).goto rfl (by rw [hp]; rfl) hvar)
      | some p =>
        simp only [System.get] at hs
        split at hs
        · rename_i hmem
          cases hs
          exact h.get hp hvar hmem
        · cases hs
    · cases hs
  | push t k msg =>
    simp only at hs
    split at hs
    · rename_i mq hp hvar
      cases hs
      unfold System.push
      split
      · exact h.report rfl
      · rename_i hv
        split
        · exact h.report rfl
        · refine h.move (w := { s.threads t with place := .pushing k msg }) rfl
            (fun err herr => .inl herr) (owns_same (by rw [hp]; rfl)) rfl (by rw [hp]; rfl) rfl
            ((h.fits t).goto rfl (by rw [hp]; rfl) ⟨mq, hvar, by simpa using hv⟩)
    · cases hs
  | send t k e =>
    simp only at hs
    split at hs
    · rename_i mq hp hvar
      cases hs
      unfold System.send
      split
      · exact h.report rfl
      · rename_i hv
        split
        · exact h.report rfl
        · refine h.move (t := t) (w := { s.threads t with
              vars := Function.update (s.threads t).vars k (some { mq with sealed_ := true })
              place := .sending k e }) ?_ (fun err herr => .inl herr) ?_ rfl (by rw [hp]; rfl) rfl
            ((h.fits t).goto rfl (by rw [hp]; rfl) ?_)
          · simp [System.setVar, System.goto, System.setThread]
          · have hsent : (s.threads t).place.sent = none := by rw [hp]; rfl
            funext k'
            by_cases hk : k' = k
            · simp [Thread.owns, hk, hvar, hsent, show (Place.sending k e).sent = none from rfl]
            · simp [Thread.owns, hk, hsent, show (Place.sending k e).sent = none from rfl]
          · exact ⟨_, Function.update_self .., by simpa using hv, rfl⟩
    · cases hs
  | recv t e recvBehavior =>
    simp only at hs
    split at hs
    · rename_i hp
      cases hs
      cases recvBehavior with
      | BLOCK =>
        exact h.move (w := { s.threads t with place := .blocking e }) rfl
          (fun err herr => .inl herr) (owns_same (by rw [hp]; rfl)) rfl (by rw [hp]; rfl) rfl
          ((h.fits t).goto rfl (by rw [hp]; rfl) hok)
      | NONBLOCK =>
        exact h.move (w := { s.threads t with place := .looping e }) rfl
          (fun err herr => .inl herr) (owns_same (by rw [hp]; rfl)) rfl (by rw [hp]; rfl) rfl
          ((h.fits t).goto rfl (by rw [hp]; rfl) hok)
    · cases hs
  | go t found => exact h.go hs

theorem inv_of_run
    (h : RunUnder (System.Step id_) (fun _ l => OneReceiver receiver l) {} s) :
    Inv id_ receiver s :=
  h.invariant (Inv id_ receiver) (Inv.start id_ receiver) fun _ _ _ hI hok hs => hI.step hok hs

end

end Omulator.Storages
