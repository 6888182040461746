import Omulator.Di.Binding
import Omulator.Di.Destruction

/-!
# When `get` keeps giving the same reference

A reference that `get` has returned is in the map of the injector or in that of its parent.
No entry of a map is ever replaced. But an injector that has referred to its parent may come
to have an entry of its own, and that entry hides the one of the parent.
-/

namespace Omulator.Di
open Omulator.Lib Comp

/-! ### Requests that hide an instance -/

namespace World

def returned (i : ℕ) (T : Hash_t) (w : World) : Bool :=
  w.trace.any fun
    | .got j U _ => j == i && U == T
    | _ => false

/-- `get<T>()` on `i` is answered with the instance of the parent. -/
def refers (i : ℕ) (T : Hash_t) (w : World) : Bool :=
  !w.has_instance i T &&
    match (w.inj i).pUpstream_ with
    | some q => w.has_instance q T
    | none => false

end World

namespace Call

def makes (c : Call) (w : World) : Bool :=
  c.kind == .creat || (!w.has_instance c.inj c.type && !w.refers c.inj c.type)

def binder (c : Call) (w : World) : Option ℕ :=
  match w.find_recipe_ c.type (c.inj + 1) c.inj with
  | some (P, .bind _) => some P
  | _ => none

/-- The entries that the call, as it makes an instance, puts into type maps. -/
def fills (c : Call) (w : World) : List (ℕ × Hash_t) :=
  if c.makes w then
    (if c.kind = .get then [(c.inj, c.type)] else []) ++ (c.binder w).toList.map (·, c.type)
  else []

/-- The call hides an instance that its injector, or the one whose binding it runs, has referred
to: `get` is answered by the parent with the entry of the injector's own under way, or a binding
is run on an injector that has no entry and has answered before. -/
def hides (under : List (ℕ × Hash_t)) (c : Call) (w : World) : Bool :=
  (c.kind == .get && w.refers c.inj c.type && decide ((c.inj, c.type) ∈ under)) ||
  (c.makes w && (c.binder w).any fun P => !w.has_instance P c.type && w.returned P c.type)

end Call

/-- `exec`, as long as no request in it hides an instance; `under` are the entries under way. -/
def execUnder (ty : Types) : ℕ → List (ℕ × Hash_t) → Call → M (Option Addr)
  | 0, _, _ => fun _ => none
  | fuel + 1, under, c => look fun w =>
    if c.hides under w then fun _ => none
    else callBody ty (execUnder ty fuel (c.fills w ++ under)) c

theorem execUnder_approx (ty : Types) (fuel : ℕ) (under : List (ℕ × Hash_t)) (c : Call) :
    Approx (execUnder ty fuel under c) (exec ty fuel c) := by
  induction fuel generalizing under c with
  | zero => intro w x h; cases h
  | succ fuel ih =>
    intro w x h
    simp only [execUnder, look] at h
    split at h
    · cases h
    · exact callBody_approx (ih (c.fills w ++ under)) c w x h

theorem returned_iff {w : World} {i : ℕ} {T : Hash_t} :
    w.returned i T = true ↔ ∃ p, .got i T p ∈ w.trace := by
  simp only [World.returned, List.any_eq_true]
  constructor
  · rintro ⟨e, he, hm⟩
    cases e with
    | got j U p =>
      simp only [Bool.and_eq_true, beq_iff_eq] at hm
      obtain ⟨rfl, rfl⟩ := hm
      exact ⟨p, he⟩
    | _ => cases hm
  · rintro ⟨p, hp⟩
    exact ⟨_, hp, by simp⟩

/-! ### The invariant -/

/-- What becomes of a reference: it is found until the injector is gone, or the parent that had
the instance. -/
def Answered (D : Finset ℕ) (w : World) (i : ℕ) (T : Hash_t) (p : Option Addr) : Prop :=
  i ∈ D ∨ Located w i T p ∨
    ((w.inj i).typeMap_.lookup T = none ∧ ∃ q ∈ D, (w.inj i).pUpstream_ = some q)

/-- With the injectors `D` destroyed and the entries `under` under way. -/
structure Calm (D : Finset ℕ) (under : List (ℕ × Hash_t)) (w : World) : Prop where
  known : ∀ i T p, .got i T p ∈ w.trace → i < w.count
  answered : ∀ i T p, .got i T p ∈ w.trace → Answered D w i T p
  placed : ∀ x ∈ under, x.1 < w.count
  -- an entry under way hides nothing that was returned
  quiet : ∀ x ∈ under, (w.inj x.1).typeMap_.lookup x.2 = none → ∀ p, .got x.1 x.2 p ∉ w.trace

structure Usable (D : Finset ℕ) (w : World) (i : ℕ) : Prop where
  wf : w.WF
  lt : i < w.count
  alive : ∀ j, Anc w j i → j ∉ D

section
variable {D : Finset ℕ} {under new : List (ℕ × Hash_t)} {w w' : World} {i j k : ℕ}
  {T U : Hash_t} {p : Option Addr}

theorem Calm.keep (h : Calm D under w) (hw : w.WF) (hcount : w.count ≤ w'.count)
    (htrace : ∀ i T p, .got i T p ∈ w'.trace → .got i T p ∈ w.trace)
    (hup : ∀ j < w.count, (w'.inj j).pUpstream_ = (w.inj j).pUpstream_)
    (hmap : ∀ j < w.count, ∀ U, (w'.inj j).typeMap_.lookup U = (w.inj j).typeMap_.lookup U ∨
      ((j, U) ∈ under ∧ (w.inj j).typeMap_.lookup U = none)) : Calm D under w' where
  known i T p hp := Nat.lt_of_lt_of_le (h.known i T p (htrace i T p hp)) hcount
  answered i T p hp := by
    have hgot := htrace i T p hp
    have hi := h.known i T p hgot
    have hown : (w'.inj i).typeMap_.lookup T = (w.inj i).typeMap_.lookup T := by
      rcases hmap i hi T with heq | ⟨hmem, hnone⟩
      · exact heq
      · exact absurd hgot (h.quiet (i, T) hmem hnone p)
    rcases h.answered i T p hgot with hD | hloc | ⟨hnone, q, hq, hpq⟩
    · exact Or.inl hD
    · refine Or.inr (Or.inl ?_)
      rcases hloc with ⟨c, hc, hcp⟩ | ⟨hnone, q, hpq, c, hc, hcp⟩
      · exact Or.inl ⟨c, hown.trans hc, hcp⟩
      · have hq : q < w.count := Nat.lt_trans (hw i q hi hpq) hi
        refine Or.inr ⟨hown.trans hnone, q, (hup i hi).trans hpq, c, ?_, hcp⟩
        rcases hmap q hq T with heq | ⟨_, hqn⟩
        · exact heq.trans hc
        · rw [hqn] at hc
          cases hc
    · exact Or.inr (Or.inr ⟨hown.trans hnone, q, hq, (hup i hi).trans hpq⟩)
  placed x hx := Nat.lt_of_lt_of_le (h.placed x hx) hcount
  quiet x hx hnone p hp := by
    have hnone' : (w.inj x.1).typeMap_.lookup x.2 = none := by
      rcases hmap x.1 (h.placed x hx) x.2 with heq | ⟨_, hn⟩
      · exact heq.symm.trans hnone
      · exact hn
    exact h.quiet x hx hnone' p (htrace x.1 x.2 p hp)

theorem Calm.same (h : Calm D under w) (hw : w.WF) (hcount : w.count ≤ w'.count)
    (htrace : ∀ i T p, .got i T p ∈ w'.trace → .got i T p ∈ w.trace)
    (hup : ∀ j < w.count, (w'.inj j).pUpstream_ = (w.inj j).pUpstream_)
    (hmap : ∀ j < w.count, (w'.inj j).typeMap_ = (w.inj j).typeMap_) : Calm D under w' :=
  h.keep hw hcount htrace hup fun j hj U => Or.inl (by rw [hmap j hj])

theorem Calm.emit (h : Calm D under w) (hw : w.WF) {e : Event} (he : ∀ i T p, e ≠ .got i T p) :
    Calm D under (w.emit e) := by
  refine h.same hw le_rfl ?_ (fun _ _ => rfl) (fun _ _ => rfl)
  intro i T p hp
  rcases List.mem_append.mp hp with hp | hp
  · exact hp
  · exact absurd (List.mem_singleton.mp hp).symm (he i T p)

theorem Calm.destroyAll (h : Calm D under w) (hw : w.WF) (as : List Addr) :
    Calm D under (w.destroyAll as) := by
  refine h.same hw le_rfl ?_ (fun _ _ => rfl) (fun _ _ => rfl)
  intro i T p hp
  rcases List.mem_append.mp hp with hp | hp
  · exact hp
  · obtain ⟨a, _, ha⟩ := List.mem_map.mp hp
    cases ha

theorem Calm.alloc (h : Calm D under w) (hw : w.WF) : Calm D under w.alloc :=
  h.same hw le_rfl (fun _ _ _ hp => hp) (fun _ _ => rfl) (fun _ _ => rfl)

theorem Calm.newChild (h : Calm D under w) (hw : w.WF) (i : ℕ) : Calm D under (w.newChild i) := by
  refine h.same hw (Nat.le_succ _) (fun _ _ _ hp => hp) ?_ ?_
  · intro j hj
    rw [World.newChild_inj_ne _ _ _ (by omega)]
  · intro j hj
    rw [World.newChild_inj_ne _ _ _ (by omega)]

theorem Calm.onTypeMap (h : Calm D under w) (hw : w.WF) (hmem : (i, T) ∈ under)
    (g : TypeMap → TypeMap × List Addr) (hg : ∀ m : TypeMap, m.Adds T (g m).1) :
    Calm D under (w.onTypeMap i g) := by
  have hp : Placed i T w (w.onTypeMap i g) := Placed.onTypeMap i T w g hg
  refine h.keep hw le_rfl ?_ (fun j _ => (hp.stays j).2.2.2.2) ?_
  · intro j U p hgot
    rcases List.mem_append.mp hgot with hgot | hgot
    · exact hgot
    · obtain ⟨a, _, ha⟩ := List.mem_map.mp hgot
      cases ha
  · intro j _ U
    by_cases hjU : j ≠ i ∨ U ≠ T
    · exact Or.inl (hp.lookup_ne hjU)
    · push Not at hjU
      obtain ⟨rfl, rfl⟩ := hjU
      cases hl : (w.inj j).typeMap_.lookup U with
      | none => exact Or.inr ⟨hmem, rfl⟩
      | some c => exact Or.inl (hp.lookup_some hl)

theorem Calm.got (h : Calm D under w) (hi : i < w.count) (hloc : Located w i T p)
    (hq : (i, T) ∈ under → (w.inj i).typeMap_.lookup T ≠ none) :
    Calm D under (w.emit (.got i T p)) where
  known j U q hp := by
    rcases List.mem_append.mp hp with hp | hp
    · exact h.known j U q hp
    · cases List.mem_singleton.mp hp
      exact hi
  answered j U q hp := by
    rcases List.mem_append.mp hp with hp | hp
    · exact h.answered j U q hp
    · cases List.mem_singleton.mp hp
      exact Or.inr (Or.inl hloc)
  placed := h.placed
  quiet x hx hnone q hp := by
    rcases List.mem_append.mp hp with hp | hp
    · exact h.quiet x hx hnone q hp
    · have hx' := List.mem_singleton.mp hp
      cases hx'
      exact hq hx hnone

theorem Calm.push (h : Calm D under w) (hlt : ∀ x ∈ new, x.1 < w.count)
    (hnew : ∀ x ∈ new, (w.inj x.1).typeMap_.lookup x.2 = none → ∀ p, .got x.1 x.2 p ∉ w.trace) :
    Calm D (new ++ under) w where
  known := h.known
  answered := h.answered
  placed x hx := (List.mem_append.mp hx).elim (hlt x) (h.placed x)
  quiet x hx := (List.mem_append.mp hx).elim (hnew x) (h.quiet x)

theorem Calm.pop (h : Calm D (new ++ under) w) : Calm D under w where
  known := h.known
  answered := h.answered
  placed x hx := h.placed x (List.mem_append_right _ hx)
  quiet x hx := h.quiet x (List.mem_append_right _ hx)

end

/-! ### What a call keeps -/

theorem Placed.wf {i : ℕ} {T : Hash_t} {w w' : World} (h : Placed i T w w') (hw : w.WF) :
    w'.WF := by
  intro j p hj hp
  rw [h.count] at hj
  exact hw j p hj ((h.stays j).2.2.2.2.symm.trans hp)

theorem anc_of_ext {w w' : World} {i j k : ℕ} (hw : w.WF) (he : Ext k w w') (hi : i < w.count)
    (h : Anc w' j i) : Anc w j i := by
  induction h with
  | self => exact .self _
  | up hp _ ih =>
    rw [he.upstream _ hi] at hp
    have hlt := hw _ _ hi hp
    exact .up hp (ih (by omega))

section
variable {ty : Types} {rec : Call → M (Option Addr)} {D : Finset ℕ}
  {under : List (ℕ × Hash_t)} {w w' : World} {i k : ℕ}

theorem Usable.ext (h : Usable D w i) (hk : k < w.count) (he : Ext k w w') : Usable D w' i where
  wf := he.wf hk h.wf
  lt := Nat.lt_of_lt_of_le h.lt he.count
  alive j hj := h.alive j (anc_of_ext h.wf he h.lt hj)

theorem Usable.anc (h : Usable D w i) (hk : Anc w k i) : Usable D w k where
  wf := h.wf
  lt := Nat.lt_of_le_of_lt (hk.le h.wf h.lt) h.lt
  alive j hj := h.alive j (hj.trans hk)

/-- A `get` that is answered from the injector's own map does not go up the chain. -/
def Allowed (D : Finset ℕ) (w : World) (c : Call) : Prop :=
  (c.kind = .get ∧ w.has_instance c.inj c.type = true) ∨ ∀ j, Anc w j c.inj → j ∉ D

abbrev Keeps (D : Finset ℕ) (under : List (ℕ × Hash_t)) (rec : Call → M (Option Addr)) : Prop :=
  ∀ c w, w.WF → c.inj < w.count → Allowed D w c → Calm D under w →
    wp (rec c) (fun _ u => Calm D under u) w

theorem request_calm (hext : Extends rec) (hrec : Keeps D under rec) {kind : Kind} {T : Hash_t}
    (hu : Usable D w i) (h : Calm D under w) :
    wp (rec ⟨kind, i, T⟩) (fun _ u => Usable D u i ∧ Calm D under u) w := by
  refine wp_mono (wp_and (hext ⟨kind, i, T⟩ w ⟨hu.wf, hu.lt⟩)
    (hrec ⟨kind, i, T⟩ w hu.wf hu.lt (Or.inr hu.alive) h)) ?_
  intro r u hr
  exact ⟨hu.ext hu.lt hr.1, hr.2⟩

theorem runProg_calm (hext : Extends rec) (hrec : Keeps D under rec) (i : ℕ) (p : Prog)
    (w : World) (hu : Usable D w i) (h : Calm D under w) :
    wp (runProg rec i p) (fun _ u => Calm D under u) w := by
  induction p generalizing w with
  | new =>
    rw [runProg, wp_look, wp_change, wp_ret]
    exact h.alloc hu.wf
  | ret p =>
    rw [runProg, wp_ret]
    exact h
  | throw e =>
    rw [runProg, wp_raise]
    exact h
  | get U k ih | creat U k ih =>
    rw [runProg, wp_attempt]
    refine wp_mono (request_calm hext hrec hu h) ?_
    intro r u hr
    exact ih r u hr.1 hr.2

theorem recipeClosure_calm (hext : Extends rec) (hrec : Keeps D under rec) (o i : ℕ) (T : Hash_t)
    (recipe : Recipe) (w : World) (hu : Usable D w o) (h : Calm D under w)
    (hb : ∀ impl, recipe = .bind impl → (o, T) ∈ under) :
    wp (recipeClosure rec o T recipe i) (fun _ u => Calm D under u) w := by
  have hu' : Usable D (w.emit (.recipe T i o)) o := hu.ext hu.lt (Ext.emit o w _)
  have h' : Calm D under (w.emit (.recipe T i o)) := h.emit hu.wf (by simp)
  refine wp_recipeClosure_cases rec (fun body _ => ?_) (fun impl hr => ?_) fun _ => ?_
  · refine wp_mono (wp_and (runProg_ext hext o (body w.trace.length) _ hu'.wf hu'.lt)
      (runProg_calm hext hrec o (body w.trace.length) _ hu' h')) ?_
    intro r u hr
    cases r with
    | error e => exact hr.2
    | ok p => exact hr.2.emit (hr.1.wf hu'.lt hu'.wf) (by simp)
  · refine wp_mono (request_calm hext hrec hu' h') ?_
    rintro r u ⟨hu'', hcalm⟩
    cases r with
    | error e => exact hcalm
    | ok p =>
      have hput : Calm D under (u.emplace_impl o T p) :=
        hcalm.onTypeMap hu''.wf (hb impl hr) _ fun m => m.adds_emplace_impl T p
      have hwf : (u.emplace_impl o T p).WF := (Placed.emplace_impl o T p u).wf hu''.wf
      exact hput.emit hwf (by simp)
  · have hwf : ((w.emit (.recipe T i o)).newChild o).WF := (Ext.newChild o _).wf hu'.lt hu'.wf
    exact (h'.newChild hu'.wf o).emit hwf (by simp)

theorem place_calm (i : ℕ) (T : Hash_t) (d : DepType_t) (c : TypeContainer) (hw : w.WF)
    (h : Calm D under w) (hd : d = .REFERENCE → (i, T) ∈ under) :
    wp (place ty i T d c) (fun _ u => Calm D under u) w := by
  refine wp_place ty (fun _ => h.destroyAll hw _) (fun _ _ => h) fun _ hr => ?_
  have hput : Calm D under (w.onTypeMap i (·.emplace_ptr T c.ptr_)) :=
    h.onTypeMap hw (hd hr) _ fun m => m.adds_emplace_ptr T _
  have hwf : (w.onTypeMap i (·.emplace_ptr T c.ptr_)).WF :=
    (Placed.onTypeMap i T w _ fun m => m.adds_emplace_ptr T _).wf hw
  unfold World.emplace_ptr
  split
  · exact hput
  · dsimp only
    split
    · exact hput
    · exact hput.emit hwf (by simp)

theorem createInstance_calm (T : Hash_t) (hw : w.WF) (h : Calm D under w) :
    wp (createInstance ty T) (fun _ u => Calm D under u) w :=
  wp_createInstance ty (fun _ _ => h) fun _ => (h.alloc hw).emit hw (by simp)

theorem emplaceDefault_calm (i : ℕ) (T : Hash_t) (hw : w.WF) (h : Calm D under w)
    (hmem : (i, T) ∈ under) : wp (emplaceDefault ty i T) (fun _ u => Calm D under u) w := by
  refine wp_emplaceDefault ty (fun _ => h) (fun _ n _ => ?_) fun _ _ => ?_
  · exact h.onTypeMap hw hmem _ fun m => m.adds_emplace T none
  · have hput : Calm D under (w.alloc.onTypeMap i (·.emplace T (some (.obj w.fresh)))) :=
      (h.alloc hw).onTypeMap hw hmem _ fun m => m.adds_emplace T _
    have hwf : (w.alloc.onTypeMap i (·.emplace T (some (.obj w.fresh)))).WF :=
      (Placed.onTypeMap i T w.alloc _ fun m => m.adds_emplace T _).wf hw
    exact (hput.emit hwf (by simp)).emit hwf (by simp)

theorem inject_calm (hext : Extends rec) (hrec : Keeps D under rec) (i : ℕ) (T : Hash_t)
    (d : DepType_t) (w : World) (hu : Usable D w i) (h : Calm D under w)
    (hd : d = .REFERENCE → (i, T) ∈ under)
    (hb : ∀ P impl, w.find_recipe_ T (i + 1) i = some (P, .bind impl) → (P, T) ∈ under) :
    wp (inject_ ty rec i T d) (fun _ u => Calm D under u) w := by
  refine wp_inject ty rec (fun owner recipe hfind => ?_) (fun e _ _ => h)
    (fun _ _ _ _ => createInstance_calm T hu.wf h)
    fun _ _ _ hr => emplaceDefault_calm i T hu.wf h (hd hr)
  have ho : Usable D w owner := hu.anc (find_recipe_some hfind).1
  refine wp_mono (wp_and (recipeClosure_ext hext owner i T recipe w ho.wf ho.lt)
    (recipeClosure_calm hext hrec owner i T recipe w ho h ?_)) ?_
  · intro impl hr
    subst hr
    exact hb owner impl hfind
  · rintro r u ⟨⟨w₁, he, hp⟩, hcalm⟩
    cases r with
    | error e => exact hcalm
    | ok c => exact place_calm i T d c (hp.wf (he.wf ho.lt ho.wf)) hcalm hd

theorem makeDependency_calm (hext : Extends rec) (hrec : Keeps D under rec) (i : ℕ) (T : Hash_t)
    (d : DepType_t) (w : World) (hu : Usable D w i) (h : Calm D under w)
    (hd : d = .REFERENCE → (i, T) ∈ under)
    (hb : ∀ P impl, w.find_recipe_ T (i + 1) i = some (P, .bind impl) → (P, T) ∈ under) :
    wp (makeDependency_ ty rec i T d) (fun _ u => Calm D under u) w := by
  refine wp_makeDependency ty rec (fun _ _ => h) fun hT => ?_
  have hent := Ext.enter i T w
  have hin : Calm D under (enter i T w) := h.same hu.wf le_rfl (fun _ _ _ hp => hp)
    (fun j _ => enter_upstream i j T w) (fun j _ => enter_typeMap i j T w)
  refine wp_mono (wp_and (inject_ext hext i T d w hu.wf hu.lt hT)
    (inject_calm hext hrec i T d _ (hu.ext hu.lt hent) hin hd ?_)) ?_
  · intro P impl hfind
    refine hb P impl ?_
    rw [← hfind]
    exact (find_recipe_congr T (fun j => enter_recipes i j T w) (fun j => enter_upstream i j T w)
      (i + 1) i).symm
  · intro r u hr
    obtain ⟨he, hr⟩ := hr
    cases r with
    | error e => exact hr
    | ok c =>
      refine hr.same (he.wf hu.lt hu.wf) (leave_count ..).ge ?_
        (fun j _ => leave_upstream i j T d _ u) (fun j _ => leave_typeMap i j T d _ u)
      intro j U p hp
      rwa [leave_trace] at hp

end

/-! ### The requests that hide nothing -/

section
variable {ty : Types} {rec : Call → M (Option Addr)} {D : Finset ℕ}
  {under : List (ℕ × Hash_t)} {w : World} {i : ℕ} {T : Hash_t}

theorem refers_iff : w.refers i T = true ↔ (w.inj i).typeMap_.lookup T = none ∧
    ∃ q, (w.inj i).pUpstream_ = some q ∧ w.has_instance q T = true := by
  unfold World.refers
  cases hp : (w.inj i).pUpstream_ with
  | none => simp
  | some q => simp [no_instance_iff]

theorem makes_get : Call.makes ⟨.get, i, T⟩ w = true ↔ (w.inj i).typeMap_.lookup T = none ∧
    ∀ q, (w.inj i).pUpstream_ = some q → w.has_instance q T = false := by
  rw [← no_instance_iff]
  unfold Call.makes World.refers
  cases hl : w.has_instance i T with
  | true => simp
  | false =>
    cases hp : (w.inj i).pUpstream_ with
    | none => simp
    | some q => simp

theorem binder_some {c : Call} {P : ℕ} : c.binder w = some P ↔
    ∃ impl, w.find_recipe_ c.type (c.inj + 1) c.inj = some (P, .bind impl) := by
  unfold Call.binder
  split
  case h_1 Q impl h => simp [h, eq_comm]
  case h_2 h =>
    constructor
    · intro hp
      cases hp
    · rintro ⟨impl, hp⟩
      exact absurd hp (h P impl)

theorem mem_fills {c : Call} {x : ℕ × Hash_t} (hm : c.makes w = true) :
    x ∈ c.fills w ↔ (c.kind = .get ∧ x = (c.inj, c.type)) ∨
      ∃ P, c.binder w = some P ∧ x = (P, c.type) := by
  unfold Call.fills
  rw [if_pos hm, List.mem_append]
  refine or_congr ?_ ?_
  · split
    · next hk => simp [hk]
    · next hk => simp [hk]
  · simp [eq_comm]

theorem fills_calm {c : Call} (hu : Usable D w c.inj) (h : Calm D under w)
    (hm : c.makes w = true) (hh : c.hides under w = false) :
    Calm D (c.fills w ++ under) w := by
  obtain ⟨kind, i, T⟩ := c
  have hbind : ∀ P, Call.binder ⟨kind, i, T⟩ w = some P →
      (w.inj P).typeMap_.lookup T = none → ∀ p, .got P T p ∉ w.trace := by
    intro P hP hnone p hp
    have hret : w.returned P T = true := returned_iff.mpr ⟨p, hp⟩
    have hno : w.has_instance P T = false := no_instance_iff.mpr hnone
    simp [Call.hides, hm, hP, hret, hno] at hh
  refine h.push ?_ ?_
  · intro x hx
    rcases (mem_fills hm).mp hx with ⟨_, rfl⟩ | ⟨P, hP, rfl⟩
    · exact hu.lt
    · obtain ⟨impl, hfind⟩ := binder_some.mp hP
      exact (hu.anc (find_recipe_some hfind).1).lt
  · intro x hx hnone p hp
    rcases (mem_fills hm).mp hx with ⟨hk, rfl⟩ | ⟨P, hP, rfl⟩
    · have hk' : kind = .get := hk
      subst hk'
      have hup := (makes_get.mp hm).2
      -- the injector has answered, so it or its parent has the instance
      rcases h.answered i T p hp with hD | hloc | ⟨_, q, hq, hpq⟩
      · exact hu.alive i (.self i) hD
      · rcases hloc with ⟨c, hc, _⟩ | ⟨_, q, hpq, c, hc, _⟩
        · rw [hnone] at hc
          cases hc
        · have hyes := has_instance_of_lookup hc
          rw [hup q hpq] at hyes
          cases hyes
      · exact hu.alive q (.up hpq (.self q)) hq
    · exact hbind P hP hnone p hp

theorem refOf_calm (hi : i < w.count) (h : Calm D under w) :
    wp (refOf i T) (fun _ u => Calm D under u) w := by
  refine wp_refOf (fun _ => h) fun c hl => ?_
  exact h.got hi (Or.inl ⟨c, hl, rfl⟩) fun _ => by simp [hl]

theorem made_calm {kind : Kind} {d : DepType_t} (hext : Extends rec) (hw : w.WF) (hi : i < w.count)
    (hall : Allowed D w ⟨kind, i, T⟩) (h : Calm D under w)
    (hh : Call.hides under ⟨kind, i, T⟩ w = false)
    (hrec : Keeps D (Call.fills ⟨kind, i, T⟩ w ++ under) rec) (hd : d = .REFERENCE ↔ kind = .get)
    (hm : Call.makes ⟨kind, i, T⟩ w = true) :
    wp (makeDependency_ ty rec i T d) (fun _ u => i < u.count ∧ Calm D under u)
      (w.emit (.asked kind i T)) := by
  have hnone : d = .REFERENCE → (w.inj i).typeMap_.lookup T = none := by
    intro hdr
    obtain rfl : kind = .get := hd.mp hdr
    exact (makes_get.mp hm).1
  have hu : Usable D w i := by
    refine ⟨hw, hi, hall.resolve_left ?_⟩
    rintro ⟨hk, hhas⟩
    have hno := no_instance_iff.mpr (hnone (hd.mpr hk))
    rw [hhas] at hno
    cases hno
  have hfull := (fills_calm hu h hm hh).emit hw (e := .asked kind i T) (by simp)
  have hu' : Usable D (w.emit (.asked kind i T)) i := hu.ext hi (Ext.emit i w _)
  refine wp_mono (wp_and (makeDependency_ext hext i T d _ hu'.wf hu'.lt hnone)
    (makeDependency_calm hext hrec i T d _ hu' hfull ?_ ?_)) ?_
  · intro hdr
    exact List.mem_append_left _ ((mem_fills hm).mpr (Or.inl ⟨hd.mp hdr, rfl⟩))
  · intro P impl hfind
    refine List.mem_append_left _ ((mem_fills hm).mpr (Or.inr ⟨P, ?_, rfl⟩))
    refine binder_some.mpr ⟨impl, ?_⟩
    have hsame : (w.emit (.asked kind i T)).find_recipe_ T (i + 1) i =
        w.find_recipe_ T (i + 1) i :=
      find_recipe_congr T (by simp) (by simp) (i + 1) i
    exact hsame.symm.trans hfind
  · intro r u hr
    exact ⟨Nat.lt_of_lt_of_le hi hr.1.count, hr.2.pop⟩

/-- A `get` that is answered by the parent: the parent only looks, so nothing has changed when the
reference is returned. -/
theorem referred_calm {fuel q : ℕ} (hw : w.WF) (hi : i < w.count) (h : Calm D under w)
    (hl : (w.inj i).typeMap_.lookup T = none) (hq : (w.inj i).pUpstream_ = some q)
    (hyes : w.has_instance q T = true) (hfree : (i, T) ∉ under)
    (happ : Approx (rec ⟨.get, q, T⟩) (exec ty fuel ⟨.get, q, T⟩)) (hrec : Keeps D under rec) :
    wp (rec ⟨.get, q, T⟩) (fun r u => ∃ p, r = .ok p ∧ Calm D under (u.emit (.got i T p)))
      (w.emit (.asked .get i T)) := by
  obtain ⟨c, hc⟩ := (TypeMap.has_key_iff _ T).mp hyes
  have hlt : q < w.count := Nat.lt_trans (hw i q hi hq) hi
  have hthere : Located (w.emit (.asked .get i T)) q T c.ptr_ := Or.inl ⟨c, hc, rfl⟩
  have hlook : wp (rec ⟨.get, q, T⟩)
      (fun r u => r = .ok c.ptr_ ∧ Looked (w.emit (.asked .get i T)) u)
      (w.emit (.asked .get i T)) := wp_of_approx happ (located_get hthere fuel)
  have hkeep := hrec ⟨.get, q, T⟩ (w.emit (.asked .get i T)) hw hlt (Or.inl ⟨rfl, hyes⟩)
    (h.emit hw (by simp))
  refine wp_mono (wp_and hlook hkeep) ?_
  rintro r u ⟨⟨rfl, hu⟩, hcalm⟩
  refine ⟨c.ptr_, rfl, ?_⟩
  have hinj : u.inj = w.inj := hu.inj
  have hcount : u.count = w.count := hu.count
  have hloc : Located u i T c.ptr_ := by
    refine Or.inr ⟨?_, q, ?_, c, ?_, rfl⟩
    · rw [hinj]
      exact hl
    · rw [hinj]
      exact hq
    · rw [hinj]
      exact hc
  exact hcalm.got (by rw [hcount]; exact hi) hloc fun hmem => absurd hmem hfree

theorem callBody_calm {fuel : ℕ} {c : Call} (hw : w.WF) (hi : c.inj < w.count)
    (hall : Allowed D w c) (h : Calm D under w) (hh : c.hides under w = false)
    (happ : ∀ c', Approx (rec c') (exec ty fuel c'))
    (hrec : Keeps D (c.fills w ++ under) rec) :
    wp (callBody ty rec c) (fun _ u => Calm D under u) w := by
  have hext : Extends rec := fun c' w' hc' => wp_of_approx (happ c') (exec_ext fuel c' w' hc')
  obtain ⟨kind, i, T⟩ := c
  cases kind with
  | creat =>
    refine wp_creat ty rec (wp_mono (made_calm hext hw hi hall h hh hrec (by simp) rfl) ?_)
    intro r u hr
    cases r with
    | error e => exact hr.2
    | ok c => exact ⟨fun _ => hr.2, fun _ => hr.2⟩
  | get =>
    have hasked : Calm D under (w.emit (.asked .get i T)) := h.emit hw (by simp)
    refine wp_get ty rec (fun c _ => refOf_calm hi hasked) (fun hl q hq hyes => ?_) fun hl hup => ?_
    · have href : w.refers i T = true := refers_iff.mpr ⟨hl, q, hq, hyes⟩
      have hfree : (i, T) ∉ under := by
        intro hmem
        simp [Call.hides, href, hmem] at hh
      -- nothing is under way that was not before
      have hnofill : Call.fills ⟨.get, i, T⟩ w = [] := by simp [Call.fills, Call.makes, href]
      rw [hnofill] at hrec
      refine wp_mono (referred_calm hw hi h hl hq hyes hfree (happ ⟨.get, q, T⟩) hrec) ?_
      rintro r u ⟨p, rfl, hu⟩
      exact hu
    · refine wp_mono (made_calm hext hw hi hall h hh hrec (by simp) (makes_get.mpr ⟨hl, hup⟩)) ?_
      intro r u hr
      cases r with
      | error e => exact hr.2
      | ok c => exact refOf_calm hr.1 hr.2

/-- As long as no request hides an instance, every reference that was returned is found again. -/
theorem execUnder_calm (ty : Types) (fuel : ℕ) (under : List (ℕ × Hash_t)) :
    Keeps D under (execUnder ty fuel under) := by
  induction fuel generalizing under with
  | zero => intro c w _ _ _ _ r u hrun; cases hrun
  | succ fuel ih =>
    intro c w hw hi hall h r u hrun
    simp only [execUnder, look] at hrun
    split at hrun
    · cases hrun
    · next hh =>
      exact callBody_calm hw hi hall h (Bool.eq_false_of_not_eq_true hh)
        (execUnder_approx ty fuel (c.fills w ++ under)) (ih (c.fills w ++ under)) r u hrun

end

/-! ### Sessions -/

/-- A program with its injectors, some of which are destroyed. -/
structure Session where
  world : World
  destroyed : Finset ℕ

def Session.start : Session := ⟨World.root, ∅⟩

def Op.destroys : Op → Finset ℕ
  | .destroy i => {i}
  | _ => ∅

def Session.after (ty : Types) (s : Session) (op : Op) : Session :=
  ⟨(op.run ty s.world).2, op.destroys ∪ s.destroyed⟩

/-- An operation on an injector that is still there, whose chain is there where it is needed. -/
def sessionStep (ty : Types) (s : Session) (op : Op) (s' : Session) : Prop :=
  op.inj < s.world.count ∧ op.inj ∉ s.destroyed ∧
  (∀ c, op = .call c → Allowed s.destroyed s.world c) ∧ s' = s.after ty op

/-- No request of the operation, made by the program or by a recipe, hides an instance. -/
def HidesNothing (ty : Types) (s : Session) (op : Op) : Prop :=
  ∀ c, op = .call c → ∃ fuel, (execUnder ty fuel [] c s.world).isSome = true

/-- What `get<T>()` on `I` has ever returned, to the program or to a recipe, it returns again and
runs no recipe, until `I` is destroyed or the parent that manages the instance. -/
def Session.Stable (ty : Types) (s : Session) : Prop :=
  ∀ I T p, .got I T p ∈ s.world.trace → I ∉ s.destroyed →
    (∀ q, (s.world.inj I).typeMap_.lookup T = none → (s.world.inj I).pUpstream_ = some q →
      q ∉ s.destroyed) →
    (s.world.call ty ⟨.get, I, T⟩).1 = .ok p ∧ Looked s.world (s.world.call ty ⟨.get, I, T⟩).2

section
variable {ty : Types} {D : Finset ℕ} {w : World} {s s' : Session}

theorem Calm.insertRecipe (h : Calm D [] w) (hw : w.WF) (i : ℕ) (T : Hash_t) (recipe : Recipe) :
    Calm D [] (w.insertRecipe i T recipe) := by
  refine h.same hw (insertRecipe_count w i T recipe).ge ?_ ?_ ?_
  · intro j U p hp
    unfold World.insertRecipe at hp
    dsimp only at hp
    split at hp
    · rcases List.mem_append.mp hp with hp | hp
      · exact hp
      · cases List.mem_singleton.mp hp
    · exact hp
  · intro j _
    rw [insertRecipe_inj]
    split
    · next hj => rw [hj]
    · rfl
  · intro j _
    rw [insertRecipe_inj]
    split
    · next hj => rw [hj]
    · rfl

theorem Calm.destroy (h : Calm D [] w) (i : ℕ) :
    Calm ({i} ∪ D) [] (w.destroyInjector i) := by
  obtain ⟨_, hf, _, _⟩ := destroyInjector_deletes w i
  have htrace : ∀ j T p, .got j T p ∈ (w.destroyInjector i).trace → .got j T p ∈ w.trace := by
    intro j T p hp
    rw [hf.trace] at hp
    simpa using hp
  refine ⟨?_, ?_, by simp, by simp⟩
  · intro j T p hp
    rw [hf.count]
    exact h.known j T p (htrace j T p hp)
  · intro j T p hp
    by_cases hji : j = i
    · exact Or.inl (by simp [hji])
    · have hown : (w.destroyInjector i).inj j = w.inj j := hf.others j hji
      rcases h.answered j T p (htrace j T p hp) with hD | hloc | ⟨hnone, q, hq, hpq⟩
      · exact Or.inl (by simp [hD])
      · rcases hloc with ⟨c, hc, hcp⟩ | ⟨hnone, q, hpq, c, hc, hcp⟩
        · exact Or.inr (Or.inl (Or.inl ⟨c, by rw [hown]; exact hc, hcp⟩))
        · by_cases hqi : q = i
          · refine Or.inr (Or.inr ⟨by rw [hown]; exact hnone, q, by simp [hqi], ?_⟩)
            rw [hown]
            exact hpq
          · refine Or.inr (Or.inl (Or.inr ⟨by rw [hown]; exact hnone, q, ?_, c, ?_, hcp⟩))
            · rw [hown]
              exact hpq
            · rw [hf.others q hqi]
              exact hc
      · refine Or.inr (Or.inr ⟨by rw [hown]; exact hnone, q, by simp [hq], ?_⟩)
        rw [hown]
        exact hpq

theorem destroyInjector_wf (hw : w.WF) (i : ℕ) : (w.destroyInjector i).WF := by
  obtain ⟨_, hf, _, _⟩ := destroyInjector_deletes w i
  intro j p hj hp
  rw [hf.upstream] at hp
  rw [hf.count] at hj
  exact hw j p hj hp

theorem call_calm {c : Call} (hw : w.WF) (hi : c.inj < w.count) (hall : Allowed D w c)
    (h : Calm D [] w) {fuel : ℕ} (hf : (execUnder ty fuel [] c w).isSome = true) :
    Calm D [] (w.call ty c).2 := by
  obtain ⟨⟨r, u⟩, hx⟩ := Option.isSome_iff_exists.mp hf
  have hexec := execUnder_approx ty fuel [] c w (r, u) hx
  have hcall : w.call ty c = (r, u) :=
    exec_unique (exec_eq_call ty c w hw hi (Nat.lt_succ_self _)) hexec
  rw [hcall]
  exact execUnder_calm ty fuel [] c w hw hi hall h r u hx

theorem sessionStep_calm {op : Op} (hw : s.world.WF) (h : Calm s.destroyed [] s.world)
    (hok : HidesNothing ty s op) (hs : sessionStep ty s op s') :
    s'.world.WF ∧ Calm s'.destroyed [] s'.world := by
  obtain ⟨hi, _, hall, rfl⟩ := hs
  cases op with
  | call c =>
    obtain ⟨fuel, hf⟩ := hok c rfl
    have hcalm : Calm s.destroyed [] (s.world.call ty c).2 := call_calm hw hi (hall c rfl) h hf
    have hD : (Session.after ty s (.call c)).destroyed = s.destroyed := Finset.empty_union _
    rw [hD]
    exact ⟨call_wf hw hi, hcalm⟩
  | addRecipe i T body =>
    have hD : (Session.after ty s (.addRecipe i T body)).destroyed = s.destroyed :=
      Finset.empty_union _
    rw [hD]
    exact ⟨insertRecipe_wf hw i T _, h.insertRecipe hw i T _⟩
  | bindImpl i Interface Implementation =>
    have hD : (Session.after ty s (.bindImpl i Interface Implementation)).destroyed = s.destroyed :=
      Finset.empty_union _
    rw [hD]
    exact ⟨insertRecipe_wf hw i Interface _, h.insertRecipe hw i Interface _⟩
  | destroy i => exact ⟨destroyInjector_wf hw i, h.destroy i⟩

theorem Calm.stable (hw : s.world.WF) (h : Calm s.destroyed [] s.world) : s.Stable ty := by
  intro I T p hp hI hparent
  refine located_looked hw (h.known I T p hp) ?_
  rcases h.answered I T p hp with hD | hloc | ⟨hnone, q, hq, hpq⟩
  · exact absurd hD hI
  · exact hloc
  · exact absurd hq (hparent q hnone hpq)

end

/-- As long as no request hides an instance, `get` keeps giving what it has returned. -/
theorem get_stable {ty : Types} {s : Session}
    (h : RunUnder (sessionStep ty) (HidesNothing ty) Session.start s) : s.Stable ty := by
  have hinv : s.world.WF ∧ Calm s.destroyed [] s.world := by
    refine h.invariant (fun s => s.world.WF ∧ Calm s.destroyed [] s.world) ?_ ?_
    · exact ⟨root_wf, by simp [Session.start, World.root], by simp [Session.start, World.root],
        by simp, by simp⟩
    · intro t op u ht hok hs
      exact sessionStep_calm ht.1 ht.2 hok hs
  exact hinv.2.stable hinv.1

theorem sessionStep_fresh (ty : Types) {s : Session} {op : Op} (hD : s.destroyed = ∅)
    (hi : op.inj < s.world.count) : sessionStep ty s op (s.after ty op) := by
  refine ⟨hi, by simp [hD], fun c _ => Or.inr fun j _ => by simp [hD], rfl⟩

/-- An instance is there before a binding for its type is made. -/
def boundLate : Session :=
  (Session.start.after plainTypes (.call ⟨.get, 0, 1⟩)).after plainTypes (.bindImpl 0 1 2)

theorem boundLate_stable :
    (boundLate.world.call plainTypes ⟨.get, 0, 1⟩).1 = .ok (some (.obj 0)) ∧
    Looked boundLate.world (boundLate.world.call plainTypes ⟨.get, 0, 1⟩).2 := by
  have hrun : RunUnder (sessionStep plainTypes) (HidesNothing plainTypes) Session.start
      boundLate := by
    refine .next (.next .start ?_ (sessionStep_fresh plainTypes rfl (by decide))) ?_
      (sessionStep_fresh plainTypes rfl (by decide))
    · intro c hc
      cases hc
      exact ⟨3, by decide⟩
    · intro c hc
      cases hc
  refine get_stable hrun 0 1 (some (.obj 0)) (by decide) (by decide) ?_
  intro q _ hq
  cases hq

/-- The root with a child and a grandchild, the interface 1 bound to 3 on the root. The child is
given the root's instance, then binds the interface to 2. -/
def boundAgain : Session :=
  [.call ⟨.creat, 0, injectorHash⟩, .call ⟨.creat, 1, injectorHash⟩, .bindImpl 0 1 3,
    .call ⟨.get, 0, 1⟩, .call ⟨.get, 1, 1⟩, .bindImpl 1 1 2].foldl
      (Session.after interfaceTypes) Session.start

/-- When the grandchild asks for the interface, the child comes to have another instance. -/
def hidden : Session := boundAgain.after interfaceTypes (.call ⟨.get, 2, 1⟩)

theorem hidden_run : Run (sessionStep interfaceTypes) Session.start hidden := by
  refine Run.next' (Run.next' (Run.next' (Run.next' (Run.next' (Run.next' (Run.next' .start
    (sessionStep_fresh interfaceTypes rfl (by decide)))
    (sessionStep_fresh interfaceTypes rfl (by decide)))
    (sessionStep_fresh interfaceTypes rfl (by decide)))
    (sessionStep_fresh interfaceTypes rfl (by decide)))
    (sessionStep_fresh interfaceTypes rfl (by decide)))
    (sessionStep_fresh interfaceTypes rfl (by decide)))
    (sessionStep_fresh interfaceTypes rfl (by decide))

theorem hidden_differs :
    (boundAgain.world.call interfaceTypes ⟨.get, 1, 1⟩).1 = .ok (some (.obj 0)) ∧
    (hidden.world.call interfaceTypes ⟨.get, 1, 1⟩).1 = .ok (some (.obj 1)) ∧
    ¬ ∀ (ty : Types) (s : Session), Run (sessionStep ty) Session.start s → s.Stable ty := by
  have hbefore : (boundAgain.world.call interfaceTypes ⟨.get, 1, 1⟩).1 = .ok (some (.obj 0)) := by
    decide
  have hafter : (hidden.world.call interfaceTypes ⟨.get, 1, 1⟩).1 = .ok (some (.obj 1)) := by decide
  refine ⟨hbefore, hafter, fun h => ?_⟩
  have hsame := (h interfaceTypes hidden hidden_run 1 1 (some (.obj 0)) (by decide) (by decide)
    (fun q _ _ => by simp [hidden, boundAgain, Session.after, Session.start, Op.destroys])).1
  rw [hafter] at hsame
  cases hsame

end Omulator.Di
