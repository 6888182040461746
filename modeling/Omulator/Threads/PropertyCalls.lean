import Omulator.Threads.PropertyAccess

/-!
# The calls of a PropertyMap are atomic

The session performs each call at once: `get_prop` and `query_prop` when they look the key up, the
others when they access the value, and a `std::string` is accessed when its flag is cleared.
-/

namespace Omulator.Properties
open Omulator.Lib Omulator.Lib.Object Omulator.Props

variable (C : Compiler) (memory : String → UInt64)

section
variable {C memory} {t : ℕ} {op : Op} {key : String} {T : PropType} {m fresh : Bool}
  {c : Memory × Session} {d : Option Out}

/-! ### References -/

theorem right_get {out : T.Val → Out} {Q : T.Val → Option Out → Memory × Session → Prop}
    (hlp : ∀ s v, Sound C s → (∀ r ∈ op.uses, r ∈ s.refs) → Holds C s.map key T v →
      s.Performs C memory (op, out v) s)
    (hi : Inv C c) (h : Readable C t op m key T c)
    (hQ : ∀ v c, Inv C c → Stands t op none c → Mutex t m none c → Q v (some (out v)) c) :
    Right C memory t op Q (PropertyValue.get key T) none c := by
  cases T with
  | S64 | U64 | bool | double => exact right_load (by decide) hlp hi h hQ
  | string => exact right_get_string hlp hi h hQ

theorem right_set {newVal : T.Val} {out : Out} {Q : Unit → Option Out → Memory × Session → Prop}
    (hlp : Writes C memory op fresh key T newVal out) (hi : Inv C c)
    (h : Writable C t op m fresh key T c)
    (hQ : ∀ c, Inv C c → Stands t op none c → Mutex t m none c → Q () (some out) c) :
    Right C memory t op Q (PropertyValue.set key T newVal) none c := by
  cases T with
  | S64 | U64 | bool | double => exact right_store (by decide) hlp hi h hQ
  | string => exact right_set_string hlp hi h hQ

/-- Between its calls a thread has locked nothing. -/
def Idle (t : ℕ) (c : Memory × Session) : Prop :=
  c.1.mtx_ ≠ some t ∧ ∀ k, c.1.lock_ k ≠ some t

theorem steady_idle : Steady C t (Idle t) := by
  intro c c' u hu _ h hg _
  obtain ⟨hm, -⟩ := hg t (Ne.symm hu)
  exact ⟨fun hc => h.1 (hm.mtx_.mp hc), fun k hk => h.2 k ((hm.lock_ k).mp hk)⟩

theorem Stands.idle (h : Stands t op none c) (hm : Mutex t false none c) : Idle t c :=
  ⟨hm, fun k hk => by simpa using (h.2 k).mp hk⟩

theorem Idle.stands (h : Idle t c) (hu : ∀ r ∈ op.uses, r ∈ c.2.refs) : Stands t op none c :=
  ⟨hu, fun k => by simpa using h.2 k⟩

theorem right_body_get (hi : Inv C c) (h : Idle t c) (hr : (T, key) ∈ c.2.refs) :
    Right C memory t (.get T key) (fun o d c => d = some o ∧ Idle t c)
      (body C (.get T key)) none c := by
  have hu : ∀ r ∈ (Op.get T key).uses, r ∈ c.2.refs := by simpa [Op.uses] using hr
  have hlp : ∀ s v, Sound C s → (∀ r ∈ (Op.get T key).uses, r ∈ s.refs) → Holds C s.map key T v →
      s.Performs C memory (.get T key, .value ⟨T, v⟩) s := by
    rintro s v - hus ⟨e, he, hv⟩
    refine Session.step_ok hus ?_
    rw [Op.call, exec_map, get_of_reads (p := ⟨key⟩) he hv]
    rfl
  obtain ⟨e, v, he, hv⟩ := hi.sound.ref_reads hr
  have hreadable : Readable C t (.get T key) false key T c := ⟨⟨h.stands hu, h.1⟩, v, e, he, hv⟩
  exact Ok.bind (right_get hlp hi hreadable fun v c _ hu hm => ⟨rfl, hu.idle hm⟩)

theorem right_body_set {newVal : T.Val} (hi : Inv C c) (h : Idle t c) (hr : (T, key) ∈ c.2.refs) :
    Right C memory t (.set T key newVal) (fun o d c => d = some o ∧ Idle t c)
      (body C (.set T key newVal)) none c := by
  have hu : ∀ r ∈ (Op.set T key newVal).uses, r ∈ c.2.refs := by simpa [Op.uses] using hr
  have hlp : Writes C memory (.set T key newVal) false key T newVal .void := by
    intro s hs hus _
    obtain ⟨e, v, he, hv⟩ := hs.ref_reads (hus (T, key) rfl)
    obtain ⟨e', he', hx⟩ := set_of_reads (p := ⟨key⟩) he hv newVal
    refine ⟨⟨s.map.put key e', s.refs⟩, e', Session.step_ok hus ?_, rfl, he', rfl⟩
    rw [Op.call, exec_map, hx]
    rfl
  obtain ⟨e, v, he, hv⟩ := hi.sound.ref_reads hr
  have hwritable : Writable C t (.set T key newVal) false false key T c :=
    ⟨⟨h.stands hu, h.1⟩, v, e, he, hv⟩
  exact Ok.bind (right_set hlp hi hwritable fun c _ hu hm => ⟨rfl, hu.idle hm⟩)

/-! ### Methods -/

def Inside (t : ℕ) (op : Op) (c : Memory × Session) : Prop := Stands t op none c ∧ Owns t none c

theorem steady_inside : Steady C t (Inside t op) := steady_stands.and steady_owns

theorem steady_refs {α : Type} {p : α → Prop} {r : α → PropType × String} :
    Steady C t fun c => ∀ a, p a → r a ∈ c.2.refs :=
  fun _ _ _ hu _ h hg _ a ha => (hg t (Ne.symm hu)).2.refs _ (h a ha)

theorem right_scoped_lock {α : Type} {gives : Except Error α → Option (PropType × String)}
    {p : Method α} {out : Except Error α → Out} (hi : Inv C c) (h : Idle t c)
    (hu : op.uses = none)
    (hp : ∀ c, Inv C c → Inside t op c → Right C memory t op (fun r d c => Inv C c ∧
      Inside t op c ∧ (∀ ref ∈ gives r, ref ∈ c.2.refs) ∧ d = some (out r)) p.run none c) :
    Right C memory t op (fun r d c => d = some (out r) ∧ Idle t c)
      (PropertyMap.scoped_lock gives p).run none c := by
  have hstands : Stands t op none c := h.stands (by simp [hu])
  refine ok_call_bind (fun c => Stands t op none c ∧ Mutex t false none c)
    (steady_stands.and steady_mutex) hi ⟨hstands, h.1⟩ fun c hi h => ?_
  refine ⟨h.2, fun _ w hw => ?_⟩
  simp only [object, access] at hw
  split at hw
  case isFalse => cases hw
  rename_i hfree
  cases hw
  refine ⟨none, c.2, .inl ⟨rfl, rfl⟩, hi.lock, guar_lock hfree, Ok.bind ?_⟩
  refine (hp _ hi.lock ⟨h.1, rfl, fun k _ hk => hi.absent hfree k hk⟩).mono ?_
  rintro r d c ⟨hi, hin, hg, rfl⟩
  -- the end of the lock
  refine ok_call_bind (fun c => Inside t op c ∧ ∀ ref ∈ gives r, ref ∈ c.2.refs)
    (steady_inside.and steady_refs) hi ⟨hin, hg⟩ fun c hi h => ?_
  obtain ⟨⟨hs, ho⟩, hg⟩ := h
  refine ⟨ho.1, fun _ w hw => ?_⟩
  cases hw
  exact ⟨some (out r), c.2, .inl ⟨rfl, rfl⟩, hi.unlock (fun k hk => ho.2 k (by simp) hk) hg,
    guar_unlock ho.1, rfl, And.intro (by simp) fun k hk => by simpa using (hs.2 k).mp hk⟩

theorem right_outcome {α : Type} {f : α → Out} {p : Method α}
    (h : Right C memory t op (fun r d c => d = some (outOf f r) ∧ Idle t c) p.run d c) :
    Right C memory t op (fun o d c => d = some o ∧ Idle t c) (outcome f p) d c := by
  refine Ok.bind (h.mono ?_)
  rintro r d c ⟨rfl, hidle⟩
  exact ⟨rfl, hidle⟩

theorem right_bind {α β : Type} {p : Method α} {f : α → Method β}
    {Q : Except Error β → Option Out → Memory × Session → Prop}
    (h : Right C memory t op (fun r d c => match r with
      | .ok a => Right C memory t op Q (f a).run d c
      | .error e => Q (.error e) d c) p.run d c) :
    Right C memory t op Q (p >>= f).run d c := by
  rw [ExceptT.run_bind]
  refine Ok.bind (h.mono ?_)
  intro r d c hr
  cases r with
  | ok a => exact hr
  | error e => exact hr

theorem right_lift {α : Type} {p : Proc α}
    {Q : Except Error α → Option Out → Memory × Session → Prop}
    (h : Right C memory t op (fun a d c => Q (.ok a) d c) p d c) :
    Right C memory t op Q (ExceptT.lift p : Method α).run d c := Ok.bind h

theorem find_answer {x : Option Hash_t} {w : Memory} (hi : Inv C c) (ho : Owns t none c)
    (hx : (object C memory).access t (.find key) x c.1 = some w) : w = c.1 ∧
      (c.2.map.map_.lookup key = none ∧ c.1.map.map_.lookup key = none ∧ x = none ∨
        ∃ e T v, c.2.map.map_.lookup key = some e ∧ e.Reads C T v ∧ x = some (C.TypeHash T)) := by
  simp only [object, access] at hx
  split at hx
  case isFalse => cases hx
  rename_i hx'
  cases hx
  refine ⟨rfl, ?_⟩
  cases hs : c.2.map.map_.lookup key with
  | none =>
    have hw : c.1.map.map_.lookup key = none := ho.2 key (by simp) hs
    rw [hw] at hx'
    exact .inl ⟨rfl, hw, hx'.symm⟩
  | some e =>
    obtain ⟨T, v, hr⟩ := hi.sound.reads key e hs
    obtain ⟨v', e', he', hr'⟩ := hi.typed key T ⟨v, e, hs, hr⟩
    rw [he', Option.map_some, hr'.1] at hx'
    exact .inr ⟨e, T, v, rfl, hr, hx'.symm⟩

theorem right_emplace {α : Type} {p : Proc α} {s' : Session} {d' : Option Out} {w : Memory}
    {Q : α → Option Out → Memory × Session → Prop} (hi : Inv C c) (h : Inside t op c)
    (hn : c.2.map.map_.lookup key = none)
    (hw : (object C memory).access t (.emplace T key) () c.1 = some w)
    (ht : Takes (Session.Performs C memory) op d c.2 d' s')
    (hs : s' = c.2 ∨ Sound C s' ∧ s'.map = c.2.map.put key (.new C (C.TypeHash T) (memory key)) ∧
      ∀ r ∈ c.2.refs, r ∈ s'.refs)
    (hk : w = c.1.put key (.new C (C.TypeHash T) (memory key)) → Inv C (w, s') →
      Right C memory t op Q p d' (w, s')) :
    ∃ d' s, Takes (Session.Performs C memory) op d c.2 d' s ∧ Inv C (w, s) ∧
      Guar C t c (w, s) ∧ Right C memory t op Q p d' (w, s) := by
  have hr := MapEntry.new_reads C T (memory key)
  have hnone : c.1.map.map_.lookup key = none := h.2.2 key (by simp) hn
  simp only [object, access, hnone, Option.some.injEq] at hw
  subst hw
  have hmem : ∀ u, u ≠ t → KeepsMemory C u c.1 c.2
      (c.1.put key (.new C (C.TypeHash T) (memory key))) :=
    keepsMemory_put hr (.inr ⟨hnone, h.2.1⟩)
  rcases hs with rfl | ⟨hs, hmap, hrefs⟩
  · have hi' := hi.write hr (.inl ⟨hn, h.2.1⟩)
    exact ⟨d', c.2, ht, hi', fun u hu => ⟨hmem u hu, keepsSession_same rfl (fun _ => id) u⟩,
      hk rfl hi'⟩
  · have hi' := hi.put hs hmap hrefs hr hr
    exact ⟨d', s', ht, hi', fun u hu => ⟨hmem u hu,
      keepsSession_put hmap hrefs hr (.inr ⟨hn, h.2.1⟩) u hu⟩, hk rfl hi'⟩

theorem Inside.look {w : Memory} {s s' : Session} (h : Inside t op (w, s)) (hm : s'.map = s.map)
    (hr : ∀ r ∈ s.refs, r ∈ s'.refs) : Inside t op (w, s') :=
  ⟨⟨fun r hmem => hr r (h.1.1 r hmem), h.1.2⟩, h.2.1, fun k hx hk => h.2.2 k hx (hm ▸ hk)⟩

theorem Inside.put {w : Memory} {s s' : Session} {e : MapEntry} (h : Inside t op (w, s))
    (hm : s'.map = s.map.put key e) (hr : ∀ r ∈ s.refs, r ∈ s'.refs) :
    Inside t op (w.put key e, s') :=
  ⟨⟨fun r hmem => hr r (h.1.1 r hmem), h.1.2⟩, Owns.put ⟨h.2.1, fun k _ hk => h.2.2 k (by simp) hk⟩
    rfl (fun _ hk => w.map.lookup_put_ne _ hk) hm⟩

theorem steady_absent : Steady C t fun c => Inside t op c ∧ c.2.map.map_.lookup key = none := by
  intro c c' u hu hi h hg hi'
  exact ⟨steady_inside c c' u hu hi h.1 hg hi',
    (hg t (Ne.symm hu)).2.absent h.1.2.1 key h.2⟩

theorem right_body_get_prop (hi : Inv C c) (h : Idle t c) :
    Right C memory t (.get_prop T key) (fun o d c => d = some o ∧ Idle t c)
      (body C (.get_prop T key)) none c := by
  refine right_outcome (right_scoped_lock hi h rfl fun c hi hin => ?_)
  refine ok_call_bind _ steady_inside hi hin fun c hi hin => ⟨hin.2.1, fun x w hw => ?_⟩
  obtain ⟨w₀, s⟩ := c
  obtain ⟨rfl, ⟨hs, -, rfl⟩ | ⟨e, U, v, hs, hr, rfl⟩⟩ := find_answer hi hin.2 hw
  · refine ⟨none, s, .inl ⟨rfl, rfl⟩, hi, guar_refl _, ?_⟩
    refine ok_call_bind _ steady_absent hi ⟨hin, hs⟩ fun c hi hin => ⟨hin.1.2.1, fun _ w hw => ?_⟩
    have hp : c.2.Performs C memory (.get_prop T key, .reference)
        ⟨c.2.map.put key (.new C (C.TypeHash T) (memory key)), (T, key) :: c.2.refs⟩ := by
      refine Session.step_ok (by simp [Op.uses]) ?_
      rw [Op.call, exec_map, Props.PropertyMap.get_prop, get_prop_absent memory hin.2]
      rfl
    have hsub : ∀ r ∈ c.2.refs, r ∈ (T, key) :: c.2.refs := fun r hr => .tail _ hr
    refine right_emplace hi hin.1 hin.2 hw (.inr ⟨rfl, _, rfl, hp⟩)
      (.inr ⟨(hi.sound.next hp).1, rfl, hsub⟩) fun hw hi' => ?_
    subst hw
    exact ⟨hi', hin.1.put rfl hsub, by simp [Except.toOption], rfl⟩
  · by_cases hU : U = T
    · subst hU
      have hp : s.Performs C memory (.get_prop U key, .reference) ⟨s.map, (U, key) :: s.refs⟩ := by
        refine Session.step_ok (by simp [Op.uses]) ?_
        rw [Op.call, exec_map, Props.PropertyMap.get_prop, get_prop_same memory hs hr.1]
        rfl
      have hsub : ∀ r ∈ s.refs, r ∈ (U, key) :: s.refs := fun r hr => .tail _ hr
      have hi' := hi.look (hi.sound.next hp).1 rfl hsub
      refine ⟨_, _, .inr ⟨rfl, _, rfl, hp⟩, hi', guar_look rfl hsub, ?_⟩
      simp only [ne_eq, not_true_eq_false, if_false]
      exact ⟨hi', hin.look rfl hsub, by simp [Except.toOption], rfl⟩
    · have ht : C.TypeHash U ≠ C.TypeHash T := fun h => hU (C.distinct h)
      have hp : s.Performs C memory
          (.get_prop T key, .thrown (Props.PropertyMap.mismatch key)) s := by
        refine Session.step_error (by simp [Op.uses]) ?_
        rw [Op.call, exec_map, Props.PropertyMap.get_prop,
          get_prop_other memory hs (hr.1 ▸ ht)]
        rfl
      refine ⟨_, _, .inr ⟨rfl, _, rfl, hp⟩, hi, guar_refl _, ?_⟩
      simp only [ne_eq, ht, not_false_eq_true, if_true]
      exact ⟨hi, hin, by simp [Except.toOption], rfl⟩

/-- How the body of a method that gives out no reference ends. -/
def Ends {α : Type} (C : Compiler) (t : ℕ) (op : Op) (f : α → Out) (r : Except Error α)
    (d : Option Out) (c : Memory × Session) : Prop :=
  Inv C c ∧ Inside t op c ∧ d = some (outOf f r)

theorem right_method {α : Type} {p : Method α} {f : α → Out} (hi : Inv C c) (h : Idle t c)
    (hu : op.uses = none)
    (hp : ∀ c, Inv C c → Inside t op c → Right C memory t op (Ends C t op f) p.run none c) :
    Right C memory t op (fun o d c => d = some o ∧ Idle t c)
      (outcome f (PropertyMap.scoped_lock (fun _ => none) p)) none c :=
  right_outcome (right_scoped_lock hi h hu fun c hi hin =>
    (hp c hi hin).mono fun _ _ _ h => ⟨h.1, h.2.1, by simp, h.2.2⟩)

theorem right_body_query_prop (hi : Inv C c) (h : Idle t c) :
    Right C memory t (.query_prop key) (fun o d c => d = some o ∧ Idle t c)
      (body C (.query_prop key)) none c := by
  refine right_method hi h rfl fun c hi hin => right_lift ?_
  refine ok_call_bind _ steady_inside hi hin fun c hi hin => ⟨hin.2.1, fun x w hw => ?_⟩
  obtain ⟨w₀, s⟩ := c
  have hperforms : ∀ found hsh, (Props.PropertyMap.query_prop_ key).exec s.map =
      (.ok (found, hsh), s.map) → s.Performs C memory (.query_prop key, .answer found hsh) s := by
    intro found hsh hx
    refine Session.step_ok (by simp [Op.uses]) ?_
    rw [Op.call, exec_map, Props.PropertyMap.query_prop, hx]
    rfl
  obtain ⟨rfl, ⟨hs, -, rfl⟩ | ⟨e, U, v, hs, hr, rfl⟩⟩ := find_answer hi hin.2 hw
  · refine ⟨_, s, .inr ⟨rfl, _, rfl, hperforms false 0 (query_absent hs)⟩, hi, guar_refl _, ?_⟩
    exact ⟨hi, hin, rfl⟩
  · refine ⟨_, s, .inr ⟨rfl, _, rfl, hperforms true e.tag (query_present hs)⟩, hi, guar_refl _, ?_⟩
    exact ⟨hi, hin, by rw [hr.1]; rfl⟩

theorem right_get_prop_present {Q : Except Error Unit → Option Out → Memory × Session → Prop}
    (hi : Inv C c) (h : Inside t op c ∧ Typed C c.2.map key T)
    (hQ : ∀ c, Inv C c → Inside t op c ∧ Typed C c.2.map key T →
      ∃ d', Takes (Session.Performs C memory) op d c.2 d' c.2 ∧ Q (.ok ()) d' c) :
    Right C memory t op Q (PropertyMap.get_prop_ C T key).run d c := by
  refine ok_call_bind _ (steady_inside.and steady_typed) hi h
    fun c hi h => ⟨h.1.2.1, fun x w hw => ?_⟩
  obtain ⟨hin, v, hv⟩ := h
  obtain ⟨rfl, ⟨hs, -, rfl⟩ | ⟨e, U, u, hs, hr, rfl⟩⟩ := find_answer hi hin.2 hw
  · exact absurd hs (Typed.ne_none ⟨v, hv⟩)
  · have hU : U = T := Holds.type_eq ⟨e, hs, hr⟩ hv
    subst hU
    obtain ⟨d', htakes, hend⟩ := hQ c hi ⟨hin, v, hv⟩
    refine ⟨d', c.2, htakes, hi, guar_refl c, ?_⟩
    simp only [ne_eq, not_true_eq_false, if_false]
    exact hend

theorem right_get_prop_absent {Q : Except Error Unit → Option Out → Memory × Session → Prop}
    (hi : Inv C c) (h : Inside t op c ∧ c.2.map.map_.lookup key = none)
    (hQ : ∀ c, Inv C c → Writable C t op true true key T c → Q (.ok ()) d c) :
    Right C memory t op Q (PropertyMap.get_prop_ C T key).run d c := by
  refine ok_look_bind _ steady_absent guar_refl hi h fun c hi h => ⟨h.1.2.1, fun x w hw => ?_⟩
  obtain ⟨hin, hn⟩ := h
  obtain ⟨rfl, ⟨-, -, rfl⟩ | ⟨e, U, u, hs, -, rfl⟩⟩ := find_answer hi hin.2 hw
  · refine ⟨rfl, ?_⟩
    refine ok_call_bind _ steady_absent hi ⟨hin, hn⟩ fun c hi h => ⟨h.1.2.1, fun _ w hw => ?_⟩
    obtain ⟨hin, hn⟩ := h
    refine right_emplace hi hin hn hw (.inl ⟨rfl, rfl⟩) (.inl rfl) fun hw hi' => ?_
    subst hw
    refine hQ _ hi' ⟨⟨hin.1, hin.2.1, fun k hk hs => ?_⟩, hin.2.1, hn, _, .put
      (MapEntry.new_reads C T (memory key))⟩
    have hne : k ≠ key := fun h => hk (congrArg some h.symm)
    exact (c.1.map.lookup_put_ne _ hne).trans (hin.2.2 k (by simp) hs)
  · rw [hs] at hn
    cases hn

theorem right_query {Q : Except Error (Bool × Hash_t) → Option Out → Memory × Session → Prop}
    (hi : Inv C c) (h : Inside t op c)
    (habsent : ∀ c, Inv C c → Inside t op c → c.2.map.map_.lookup key = none →
      ∃ d' s, Takes (Session.Performs C memory) op d c.2 d' s ∧ Inv C (c.1, s) ∧
        Guar C t c (c.1, s) ∧ Q (.ok (false, 0)) d' (c.1, s))
    (hpresent : ∀ c T, Inv C c → Inside t op c → Typed C c.2.map key T →
      Q (.ok (true, C.TypeHash T)) d c) :
    Right C memory t op Q (ExceptT.lift (PropertyMap.query_prop_ key) : Method _).run d c := by
  refine right_lift (ok_call_bind _ steady_inside hi h fun c hi hin => ⟨hin.2.1, fun x w hw => ?_⟩)
  obtain ⟨rfl, ⟨hs, -, rfl⟩ | ⟨e, U, u, hs, hr, rfl⟩⟩ := find_answer hi hin.2 hw
  · exact habsent c hi hin hs
  · exact ⟨d, c.2, .inl ⟨rfl, rfl⟩, hi, guar_refl c, hpresent c U hi hin ⟨u, e, hs, hr⟩⟩

theorem right_get_variant (hi : Inv C c)
    (h : Inside t (.get_prop_variant key) c ∧ Typed C c.2.map key T) :
    Right C memory t (.get_prop_variant key) (Ends C t (.get_prop_variant key) .value)
      (PropertyMap.get_variant_ C T key).run none c := by
  have hlp : ∀ s v, Sound C s → (∀ r ∈ (Op.get_prop_variant key).uses, r ∈ s.refs) →
      Holds C s.map key T v → s.Performs C memory (.get_prop_variant key, .value ⟨T, v⟩) s := by
    rintro s v hs hus ⟨e, he, hr⟩
    refine Session.step_ok hus ?_
    rw [Op.call, exec_map, get_prop_variant_present memory he hr]
    rfl
  refine right_bind (right_get_prop_present hi h fun c hi h => ⟨none, .inl ⟨rfl, rfl⟩, ?_⟩)
  have hreadable : Readable C t (.get_prop_variant key) true key T c := h
  exact right_bind (right_lift (right_get hlp hi hreadable fun v c hi hu hm =>
    ⟨hi, ⟨hu, hm⟩, rfl⟩))

theorem right_body_get_prop_variant (hi : Inv C c) (h : Idle t c) :
    Right C memory t (.get_prop_variant key) (fun o d c => d = some o ∧ Idle t c)
      (body C (.get_prop_variant key)) none c := by
  refine right_method hi h rfl fun c hi hin => ?_
  refine right_bind (right_query hi hin (fun c hi hin hs => ?_) fun c T hi hin hT => ?_)
  · have hp : c.2.Performs C memory
        (.get_prop_variant key, .value ⟨.string, Props.PropertyMap.KEY_NOT_FOUND_STR⟩) c.2 := by
      refine Session.step_ok (by simp [Op.uses]) ?_
      rw [Op.call, exec_map, get_prop_variant_absent memory hs]
      rfl
    exact ⟨_, c.2, .inr ⟨rfl, _, rfl, hp⟩, hi, guar_refl c, hi, hin, rfl⟩
  · have hv : Right C memory t _ _ _ none c := right_get_variant hi ⟨hin, hT⟩
    -- the chain of tests finds the type of the tag
    cases T with
    | S64 | U64 | bool | double | string => simpa [C.distinct.eq_iff] using hv

theorem right_set_variant {val : PropVariant_t} (hi : Inv C c)
    (h : Inside t (.set_prop_variant key val) c ∧ Typed C c.2.map key T) :
    Right C memory t (.set_prop_variant key val) (Ends C t (.set_prop_variant key val) .set)
      (PropertyMap.set_variant_ C T key val).run none c := by
  cases hw : C.extract_variant_ T val with
  | none =>
    -- the call is over, in an undefined cast, once it has found its key
    refine right_bind (right_get_prop_present hi h fun c hi h => ⟨some (.thrown .undefined), ?_⟩)
    obtain ⟨v, e, he, hr⟩ := h.2
    have hp : c.2.Performs C memory (.set_prop_variant key val, .thrown .undefined) c.2 := by
      refine Session.step_error (by simp [Op.uses]) ?_
      rw [Op.call, exec_map, set_prop_variant_undefined memory he hr hw]
      rfl
    refine ⟨.inr ⟨rfl, _, rfl, hp⟩, ?_⟩
    rw [hw]
    exact ⟨hi, h.1, rfl⟩
  | some w =>
    have hlp : Writes C memory (.set_prop_variant key val) false key T w (.set true) := by
      rintro s hs hus ⟨v, e, he, hr⟩
      obtain ⟨e', he', hx⟩ := set_prop_variant_present memory he hr hw
      refine ⟨⟨s.map.put key e', s.refs⟩, e', Session.step_ok hus ?_, rfl, he', rfl⟩
      rw [Op.call, exec_map, hx]
      rfl
    refine right_bind (right_get_prop_present hi h fun c hi h => ⟨none, .inl ⟨rfl, rfl⟩, ?_⟩)
    have hwritable : Writable C t (.set_prop_variant key val) true false key T c :=
      ⟨⟨h.1.1, h.1.2.1, fun k _ hk => h.1.2.2 k (by simp) hk⟩, h.2⟩
    rw [hw]
    exact right_bind (right_lift (right_set hlp hi hwritable fun c hi hu hm =>
      ⟨hi, ⟨hu, hm⟩, rfl⟩))

theorem right_get_set {v : T.Val} (hi : Inv C c)
    (h : Inside t (.set_prop_variant key ⟨T, v⟩) c ∧ c.2.map.map_.lookup key = none) :
    Right C memory t (.set_prop_variant key ⟨T, v⟩) (Ends C t (.set_prop_variant key ⟨T, v⟩) .set)
      (PropertyMap.get_set_ C T key ⟨T, v⟩).run none c := by
  have hlp : Writes C memory (.set_prop_variant key ⟨T, v⟩) true key T v (.set true) := by
    intro s hs hus hn
    obtain ⟨e', he', hx⟩ := set_prop_variant_absent (C := C) memory hn ⟨T, v⟩
    refine ⟨⟨s.map.put key e', s.refs⟩, e', Session.step_ok hus ?_, rfl, he', rfl⟩
    rw [Op.call, exec_map, hx]
    rfl
  refine right_bind (right_get_prop_absent hi h fun c hi h => ?_)
  simp only [PropVariant_t.get?_mk]
  exact right_bind (right_lift (right_set hlp hi h fun c hi hu hm =>
    ⟨hi, ⟨hu, hm⟩, rfl⟩))

theorem right_body_set_prop_variant {val : PropVariant_t} (hi : Inv C c) (h : Idle t c) :
    Right C memory t (.set_prop_variant key val) (fun o d c => d = some o ∧ Idle t c)
      (body C (.set_prop_variant key val)) none c := by
  refine right_method hi h rfl fun c hi hin => ?_
  refine right_bind (right_query hi hin (fun c hi hin hs => ?_) fun c T hi hin hT => ?_)
  · obtain ⟨T, v⟩ := val
    have hv : Right C memory t _ _ (PropertyMap.get_set_ C T key ⟨T, v⟩).run none c :=
      right_get_set hi ⟨hin, hs⟩
    refine ⟨none, c.2, .inl ⟨rfl, rfl⟩, hi, guar_refl c, ?_⟩
    cases T with
    | S64 | U64 | bool | double | string => simpa [PropVariant_t.holds_alternative] using hv
  · have hv : Right C memory t _ _ (PropertyMap.set_variant_ C T key val).run none c :=
      right_set_variant hi ⟨hin, hT⟩
    cases T with
    | S64 | U64 | bool | double | string => simpa [C.distinct.eq_iff] using hv

end

/-! ### All calls -/

theorem inv_start : Inv C ({}, {}) where
  sound := Sound.start
  refs r hr := by cases hr
  holds k T v hk _ := hk
  typed k T hk := hk
  absent _ k hk := hk

theorem atomic : Atomic (object C memory) (Session.Performs C memory) (Inv C) (Guar C) Idle where
  stable t := steady_idle
  body t op c hi h ha := by
    have hr : ∀ r ∈ op.uses, r ∈ c.2.refs := by
      intro r hr
      have hall : op.uses.all c.1.refs.contains = true := ha
      rw [Option.mem_def.mp hr, Option.all_some] at hall
      have hmem : c.1.refs.contains r = true := hall
      exact hi.refs r (List.contains_iff_mem.mp hmem)
    cases op with
    | get_prop T key => exact right_body_get_prop hi h
    | get T key => exact right_body_get hi h (hr _ rfl)
    | set T key newVal => exact right_body_set hi h (hr _ rfl)
    | get_prop_variant key => exact right_body_get_prop_variant hi h
    | query_prop key => exact right_body_query_prop hi h
    | set_prop_variant key val => exact right_body_set_prop_variant hi h

/-- The threads get the results that one thread could have got that makes the calls one after the
other, each at a moment between its beginning and its end. The map is touched by the owner of its
mutex only, and a string by the thread that has set its flag. -/
theorem property_map_linearizable (C : Compiler) (memory : String → UInt64)
    (s : Threads ℕ Op Out Access Access.Ans Memory)
    (h : Run (object C memory).Steps ⟨{}, fun _ => none, []⟩ s) :
    (∃ L, Linearizes (Session.Performs C memory) {} s.history L) ∧
      ∀ t a k, s.calls t = some (.call a k) → fine t a s.memory :=
  linearizable (atomic C memory) (inv_start C) (fun t => ⟨by simp, by simp⟩) h

def twoThreads : List (Act ℕ Op Access Access.Ans) :=
  [.invoke 0 (.get_prop .string "key"), .access 0 .lock (), .access 0 (.find "key") none,
    .access 0 (.emplace .string "key") (), .access 0 (.unlock (some (.string, "key"))) (), .ret 0,
    .invoke 0 (.set .string "key" "ab"), .invoke 1 (.get .string "key"),
    .access 0 (.test_and_set "key") (), .access 0 (.resize "key" 2) ['?', '?'], .retry 1,
    .access 0 (.putChar "key" 0 'a') (), .access 0 (.putChar "key" 1 'b') (),
    .access 0 (.clear "key") (), .access 1 (.test_and_set "key") (), .ret 0,
    .access 1 (.size "key") (2 : ℕ), .access 1 (.char "key" 0) 'a', .access 1 (.char "key" 1) 'b',
    .access 1 (.clear "key") (), .ret 1]

theorem usage_property_map_linearizable : ∃ s,
    follow (object .sample fun _ => 0).step twoThreads ⟨{}, fun _ => none, []⟩ = some s ∧
    (∃ L, Linearizes (Session.Performs .sample fun _ => 0) {} s.history L) ∧
      ∀ t a k, s.calls t = some (.call a k) → fine t a s.memory := by
  obtain ⟨s, hs⟩ : ∃ s,
      follow (object .sample fun _ => 0).step twoThreads ⟨{}, fun _ => none, []⟩ = some s :=
    Option.isSome_iff_exists.mp (by decide)
  exact ⟨s, hs, property_map_linearizable .sample (fun _ => 0) s (run_of_follow hs)⟩

end Omulator.Properties
