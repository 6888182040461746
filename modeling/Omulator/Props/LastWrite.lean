import Omulator.Props.Tags
import Mathlib.Logic.Function.Basic

/-!
# What a property reads as

Beside the map, the abstract store: for each key the type it was made with and the value
last written to it. An entry that nobody wrote to shows the bytes its node was
allocated on, unless it is a `std::string`.
-/

namespace Omulator.Props

open Lib

/-- The type of each key's entry, the last value written to it, and the references that
were returned. -/
structure Store where
  slots : String → Option ((T : PropType) × Option T.Val) := fun _ => none
  refs : List (PropType × String) := []

variable (C : Compiler)

namespace Store

def write (a : Store) (key : String) (T : PropType) (w : Option T.Val) : Store :=
  { a with slots := Function.update a.slots key (some ⟨T, w⟩) }

/-- A variant is written as a value of the type the key has. -/
def step (a : Store) : Op → Store
  | .get_prop T key =>
    match a.slots key with
    | none => { a.write key T none with refs := (T, key) :: a.refs }
    | some p => if p.1 = T then { a with refs := (T, key) :: a.refs } else a
  | .set T key newVal => a.write key T (some newVal)
  | .set_prop_variant key val =>
    match a.slots key with
    | none => a.write key val.index (some val.val)
    | some p =>
      match C.extract_variant_ p.1 val with
      | some v => a.write key p.1 (some v)
      -- undefined: nothing is said about what comes after it
      | none => a
  | .get _ _ | .get_prop_variant _ | .query_prop _ => a

/-- The value last written to the key, and `T{}` for an entry never written to. -/
def value (a : Store) (key : String) : Option PropVariant_t :=
  (a.slots key).map fun p => ⟨p.1, p.2.getD p.1.zero⟩

end Store

def Op.read? : Op → Option String
  | .get _ key | .get_prop_variant key => some key
  | _ => none

/-- Every read of a key with an entry gives the value of the abstract store, a call leaves the
entries of other keys alone, and no behaviour is undefined. -/
def ReadsRight : Store → Session → List ((Op × Out) × Session) → Prop
  | _, _, [] => True
  | a, s, x :: tr =>
    (∀ k v, x.1.1.read? = some k → a.value k = some v → x.1.2 = .value v) ∧
      (∀ k, k ≠ x.1.1.key → x.2.map.map_.lookup k = s.map.map_.lookup k) ∧
      x.1.2 ≠ .thrown .undefined ∧ ReadsRight (a.step C x.1.1) x.2 tr

/-- The call casts no `double` to a type that does not have it. -/
def Store.Casts (a : Store) : Op → Prop
  | .set_prop_variant key val => ∀ p, a.slots key = some p → Castable p.1 val
  | _ => True

/-- No call reads a key that has an entry of another type than `std::string` to which
nothing was written, and none casts a `double` to a type that does not have it. -/
def Proper : Store → List Op → Prop
  | _, [] => True
  | a, op :: ops =>
    (∀ k T, op.read? = some k → a.slots k = some ⟨T, none⟩ → T = .string) ∧ a.Casts op ∧
      Proper (a.step C op) ops

/-- Each `PropertyValue` that is used was returned by an earlier call. -/
def Performable : Store → List Op → Prop
  | _, [] => True
  | a, op :: ops => (∀ r ∈ op.uses, r ∈ a.refs) ∧ Performable (a.step C op) ops

/-- How a session and the abstract store belong together: an entry reads as what was
written last, else as the bytes of its node. -/
structure Shows (memory : String → UInt64) (a : Store) (s : Session) : Prop where
  absent : ∀ k, a.slots k = none → s.map.map_.lookup k = none
  present : ∀ k T w, a.slots k = some ⟨T, w⟩ →
    ∃ e, s.map.map_.lookup k = some e ∧ e.Reads C T (w.getD (T.raw (memory k)))
  refs : s.refs = a.refs
  typed : ∀ T k, (T, k) ∈ a.refs → ∃ w, a.slots k = some ⟨T, w⟩

variable {C} {memory : String → UInt64} {a : Store} {s t : Session}

namespace Shows

theorem start (C : Compiler) (memory : String → UInt64) : Shows C memory {} {} where
  absent k _ := rfl
  present k T w h := by cases h
  refs := rfl
  typed T k h := by simp at h

theorem write (h : Shows C memory a s) {key : String} {T : PropType} {w : Option T.Val}
    {e : MapEntry} (he : e.Reads C T (w.getD (T.raw (memory key))))
    (hT : ∀ U v, a.slots key = some ⟨U, v⟩ → U = T) :
    Shows C memory (a.write key T w) ⟨s.map.put key e, s.refs⟩ where
  absent k hk := by
    by_cases hkk : k = key
    · subst hkk
      simp [Store.write] at hk
    · rw [PropertyMap.lookup_put_ne _ _ hkk]
      simp only [Store.write, Function.update_of_ne hkk] at hk
      exact h.absent k hk
  present k U v hk := by
    by_cases hkk : k = key
    · subst hkk
      simp only [Store.write, Function.update_self, Option.some.injEq] at hk
      cases hk
      exact ⟨e, s.map.lookup_put _ _, he⟩
    · rw [PropertyMap.lookup_put_ne _ _ hkk]
      simp only [Store.write, Function.update_of_ne hkk] at hk
      exact h.present k U v hk
  refs := h.refs
  typed U k hk := by
    obtain ⟨v, hv⟩ := h.typed U k hk
    by_cases hkk : k = key
    · subst hkk
      have hU : U = T := hT U v hv
      subst hU
      exact ⟨w, by simp [Store.write]⟩
    · exact ⟨v, by simp [Store.write, Function.update_of_ne hkk, hv]⟩

theorem ref (h : Shows C memory a s) {T : PropType} {key : String} {w : Option T.Val}
    (hw : a.slots key = some ⟨T, w⟩) :
    Shows C memory { a with refs := (T, key) :: a.refs } ⟨s.map, (T, key) :: s.refs⟩ where
  absent := h.absent
  present := h.present
  refs := congrArg ((T, key) :: ·) h.refs
  typed U k hk := by
    rcases List.mem_cons.mp hk with hk | hk
    · cases hk
      exact ⟨w, hw⟩
    · exact h.typed U k hk

/-- What one call does: the abstract store follows, a read gives what the entry shows,
other keys are left alone, and a cast may be undefined. -/
structure Follows (C : Compiler) (memory : String → UInt64) (a : Store) (s : Session) (op : Op)
    (t : Session) (o : Out) : Prop where
  shows : Shows C memory (a.step C op) t
  read : ∀ k T w, op.read? = some k → a.slots k = some ⟨T, w⟩ →
    o = .value ⟨T, w.getD (T.raw (memory k))⟩
  frame : ∀ k, k ≠ op.key → t.map.map_.lookup k = s.map.map_.lookup k
  defined : o ≠ .thrown .undefined ↔ a.Casts op

theorem ref_reads (h : Shows C memory a s) {T : PropType} {key : String}
    (hk : (T, key) ∈ a.refs) : ∃ w e, a.slots key = some ⟨T, w⟩ ∧
      s.map.map_.lookup key = some e ∧ e.Reads C T (w.getD (T.raw (memory key))) := by
  obtain ⟨w, hw⟩ := h.typed T key hk
  obtain ⟨e, he, hr⟩ := h.present key T w hw
  exact ⟨w, e, hw, he, hr⟩

theorem make (h : Shows C memory a s) {T : PropType} {key : String} (hs : a.slots key = none) :
    ∃ t o, s.step C memory (.get_prop T key) = some (t, o) ∧
      Follows C memory a s (.get_prop T key) t o := by
  have hl := h.absent key hs
  have hx : ((Op.get_prop T key).call C memory).exec s.map =
      (.ok .reference, s.map.put key (.new C (C.TypeHash T) (memory key))) := by
    rw [Op.call, exec_map, PropertyMap.get_prop, get_prop_absent memory hl]
    rfl
  refine ⟨_, _, Session.step_ok (by simp [Op.uses]) hx, ?_, by simp [Op.read?], ?_,
    iff_of_true (by simp) trivial⟩
  · have hw := h.write (w := none) (MapEntry.new_reads C T (memory key)) (by simp [hs])
    have hstep : a.step C (.get_prop T key) =
        { a.write key T none with refs := (T, key) :: a.refs } := by simp [Store.step, hs]
    rw [hstep]
    exact hw.ref (w := none) (by simp [Store.write])
  · intro k hk
    exact s.map.lookup_put_ne _ hk

theorem find (h : Shows C memory a s) {T U : PropType} {key : String} {w : Option U.Val}
    (hs : a.slots key = some ⟨U, w⟩) :
    ∃ t o, s.step C memory (.get_prop T key) = some (t, o) ∧
      Follows C memory a s (.get_prop T key) t o := by
  obtain ⟨e, he, hr⟩ := h.present key U w hs
  have hu : ∀ r ∈ (Op.get_prop T key).uses, r ∈ s.refs := by simp [Op.uses]
  by_cases hT : U = T
  · subst hT
    have hx : ((Op.get_prop U key).call C memory).exec s.map = (.ok .reference, s.map) := by
      rw [Op.call, exec_map, PropertyMap.get_prop, get_prop_same memory he hr.1]
      rfl
    refine ⟨_, _, Session.step_ok hu hx, ?_, by simp [Op.read?], fun k _ => rfl,
      iff_of_true (by simp) trivial⟩
    simpa [Store.step, hs, Op.gives] using h.ref hs
  · have ht : e.tag ≠ C.TypeHash T := fun ht => hT (hr.unique ht)
    have hx : ((Op.get_prop T key).call C memory).exec s.map =
        (.error (PropertyMap.mismatch key), s.map) := by
      rw [Op.call, exec_map, PropertyMap.get_prop, get_prop_other memory he ht]
      rfl
    refine ⟨_, _, Session.step_error hu hx, ?_, by simp [Op.read?], fun k _ => rfl,
      iff_of_true (by simp [PropertyMap.mismatch]) trivial⟩
    simpa [Store.step, hs, hT] using h

theorem look (h : Shows C memory a s) {op : Op} {o : Out} (hu : ∀ r ∈ op.uses, r ∈ s.refs)
    (hx : (op.call C memory).exec s.map = (.ok o, s.map)) (hstep : a.step C op = a)
    (hg : op.gives = []) (hr : ∀ k T w, op.read? = some k → a.slots k = some ⟨T, w⟩ →
      o = .value ⟨T, w.getD (T.raw (memory k))⟩) (ho : o ≠ .thrown .undefined) (hc : a.Casts op) :
    ∃ t o, s.step C memory op = some (t, o) ∧
      Follows C memory a s op t o := by
  refine ⟨_, _, Session.step_ok hu hx, ?_, hr, fun k _ => rfl, iff_of_true ho hc⟩
  rw [hstep, hg]
  exact h

theorem wrote (h : Shows C memory a s) {op : Op} {o : Out} {T : PropType} {v : T.Val}
    {e : MapEntry} (hu : ∀ r ∈ op.uses, r ∈ s.refs)
    (hx : (op.call C memory).exec s.map = (.ok o, s.map.put op.key e))
    (he : e.Reads C T v) (hT : ∀ U w, a.slots op.key = some ⟨U, w⟩ → U = T)
    (hstep : a.step C op = a.write op.key T (some v)) (hg : op.gives = [])
    (hr : op.read? = none) (ho : o ≠ .thrown .undefined) (hc : a.Casts op) :
    ∃ t o, s.step C memory op = some (t, o) ∧
      Follows C memory a s op t o := by
  refine ⟨_, _, Session.step_ok hu hx, ?_, by simp [hr], ?_, iff_of_true ho hc⟩
  · rw [hstep, hg]
    exact h.write he hT
  · intro k hk
    exact s.map.lookup_put_ne _ hk

theorem next_get_prop_variant (h : Shows C memory a s) (key : String) :
    ∃ t o, s.step C memory (.get_prop_variant key) = some (t, o) ∧
      Follows C memory a s (.get_prop_variant key) t o := by
  have hu : ∀ r ∈ (Op.get_prop_variant key).uses, r ∈ s.refs := by simp [Op.uses]
  cases hs : a.slots key with
  | none =>
    have hx : ((Op.get_prop_variant key).call C memory).exec s.map =
        (.ok (.value ⟨.string, PropertyMap.KEY_NOT_FOUND_STR⟩), s.map) := by
      rw [Op.call, exec_map, get_prop_variant_absent memory (h.absent key hs)]
      rfl
    refine h.look hu hx rfl rfl ?_ (by simp) trivial
    intro k U v hk hv
    cases hk
    rw [hs] at hv
    cases hv
  | some p =>
    obtain ⟨T, w⟩ := p
    obtain ⟨e, he, hr⟩ := h.present key T w hs
    have hx : ((Op.get_prop_variant key).call C memory).exec s.map =
        (.ok (.value ⟨T, w.getD (T.raw (memory key))⟩), s.map) := by
      rw [Op.call, exec_map, get_prop_variant_present memory he hr]
      rfl
    refine h.look hu hx rfl rfl ?_ (by simp) trivial
    intro k U v hk hv
    cases hk
    rw [hs] at hv
    cases hv
    rfl

theorem next_set_prop_variant (h : Shows C memory a s) (key : String) (val : PropVariant_t) :
    ∃ t o, s.step C memory (.set_prop_variant key val) = some (t, o) ∧
      Follows C memory a s (.set_prop_variant key val) t o := by
  have hu : ∀ r ∈ (Op.set_prop_variant key val).uses, r ∈ s.refs := by simp [Op.uses]
  cases hs : a.slots key with
  | none =>
    obtain ⟨e', he', hset⟩ :=
      set_prop_variant_absent (C := C) memory (h.absent key hs) val
    have hx : ((Op.set_prop_variant key val).call C memory).exec s.map =
        (.ok (.set true), s.map.put key e') := by
      rw [Op.call, exec_map, hset]
      rfl
    refine h.wrote hu hx he' (by simp [Op.key, hs]) (by simp [Store.step, Op.key, hs]) rfl rfl
      (by simp) ?_
    intro p hp
    rw [hs] at hp
    cases hp
  | some p =>
    obtain ⟨T, w⟩ := p
    obtain ⟨e, he, hr⟩ := h.present key T w hs
    have hcasts : a.Casts (.set_prop_variant key val) ↔ (C.extract_variant_ T val).isSome := by
      simp [Store.Casts, hs, extract_variant_isSome_iff]
    cases hv : C.extract_variant_ T val with
    | none =>
      have hx : ((Op.set_prop_variant key val).call C memory).exec s.map =
          (.error .undefined, s.map) := by
        rw [Op.call, exec_map, set_prop_variant_undefined memory he hr hv]
        rfl
      refine ⟨_, _, Session.step_error hu hx, ?_, by simp [Op.read?], fun k _ => rfl, ?_⟩
      · simpa [Store.step, hs, hv] using h
      · rw [hcasts, hv]
        exact iff_of_false (by simp) (by simp)
    | some v =>
      obtain ⟨e', he', hset⟩ := set_prop_variant_present memory he hr hv
      have hx : ((Op.set_prop_variant key val).call C memory).exec s.map =
          (.ok (.set true), s.map.put key e') := by
        rw [Op.call, exec_map, hset]
        rfl
      refine h.wrote hu hx he' ?_ (by simp [Store.step, Op.key, hs, hv]) rfl rfl (by simp) ?_
      · intro U u hu
        rw [Op.key, hs] at hu
        cases hu
        rfl
      · rw [hcasts, hv]
        rfl

theorem next (h : Shows C memory a s) (op : Op) (hu : ∀ r ∈ op.uses, r ∈ a.refs) :
    ∃ t o, s.step C memory op = some (t, o) ∧
      Follows C memory a s op t o := by
  have hus : ∀ r ∈ op.uses, r ∈ s.refs := h.refs ▸ hu
  cases op with
  | get_prop T key =>
    cases hs : a.slots key with
    | none => exact h.make hs
    | some p => exact h.find hs
  | get T key =>
    obtain ⟨w, e, hs, he, hr⟩ := h.ref_reads (hu (T, key) rfl)
    have hx : ((Op.get T key).call C memory).exec s.map =
        (.ok (.value ⟨T, w.getD (T.raw (memory key))⟩), s.map) := by
      rw [Op.call, exec_map, get_of_reads (p := ⟨key⟩) he hr]
      rfl
    refine h.look hus hx rfl rfl ?_ (by simp) trivial
    intro k U v hk hv
    cases hk
    rw [hs] at hv
    cases hv
    rfl
  | set T key v =>
    obtain ⟨w, e, hs, he, hr⟩ := h.ref_reads (hu (T, key) rfl)
    obtain ⟨e', he', hset⟩ := set_of_reads (p := ⟨key⟩) he hr v
    have hx : ((Op.set T key v).call C memory).exec s.map = (.ok .void, s.map.put key e') := by
      rw [Op.call, exec_map, hset]
      rfl
    refine h.wrote hus hx he' ?_ rfl rfl rfl (by simp) trivial
    intro U x hx
    rw [Op.key, hs] at hx
    cases hx
    rfl
  | get_prop_variant key => exact h.next_get_prop_variant key
  | query_prop key =>
    have hq : ∃ r, (PropertyMap.query_prop_ key).exec s.map = (.ok r, s.map) := by
      cases hl : s.map.map_.lookup key with
      | none => exact ⟨_, query_absent hl⟩
      | some e => exact ⟨_, query_present hl⟩
    obtain ⟨r, hq⟩ := hq
    have hx : ((Op.query_prop key).call C memory).exec s.map = (.ok (.answer r.1 r.2), s.map) := by
      rw [Op.call, exec_map, PropertyMap.query_prop, hq]
      rfl
    exact h.look hus hx rfl rfl (by simp [Op.read?]) (by simp) trivial
  | set_prop_variant key val => exact h.next_set_prop_variant key val

theorem performs (h : Shows C memory a s) {x : Op × Out} (hs : s.Performs C memory x t) :
    Follows C memory a s x.1 t x.2 := by
  obtain ⟨t', o, hx, hf⟩ := h.next x.1 (h.refs ▸ hs.uses)
  obtain ⟨rfl, rfl⟩ := Prod.mk.inj (Option.some.inj (hx.symm.trans hs))
  exact hf

theorem trace (h : Shows C memory a s) (ops : List Op) (hp : Performable C a ops) :
    ∃ tr, IsTrace (Session.Performs C memory) s tr ∧ tr.map (fun x => x.1.1) = ops := by
  induction ops generalizing a s with
  | nil => exact ⟨[], trivial, rfl⟩
  | cons op ops ih =>
    obtain ⟨t, o, hx, hf⟩ := h.next op hp.1
    obtain ⟨tr, htr, hm⟩ := ih hf.shows hp.2
    exact ⟨((op, o), t) :: tr, ⟨hx, htr⟩, congrArg (op :: ·) hm⟩

/-- Without early reads and undefined casts a session reads what was written last, whatever its
memory holds. -/
theorem right_of_proper (h : Shows C memory a s) {tr : List ((Op × Out) × Session)}
    (htr : IsTrace (Session.Performs C memory) s tr)
    (hn : Proper C a (tr.map fun x => x.1.1)) : ReadsRight C a s tr := by
  induction tr generalizing a s with
  | nil => trivial
  | cons x tr ih =>
    have hf := h.performs htr.1
    refine ⟨?_, hf.frame, hf.defined.mpr hn.2.1, ih hf.shows htr.2 hn.2.2⟩
    intro k v hk hv
    obtain ⟨⟨T, w⟩, hs, rfl⟩ := Option.map_eq_some_iff.mp hv
    rw [hf.read k T w hk hs]
    cases w with
    | some w => rfl
    | none =>
      have hT : T = .string := hn.1 k T hk hs
      subst hT
      rfl

end Shows

theorem raw_one_ne_zero (T : PropType) (h : T ≠ .string) : T.raw 1 ≠ T.zero := by
  cases T with
  | string => exact absurd rfl h
  | S64 | U64 | bool | double => decide

/-- On memory full of ones each early read goes wrong. -/
theorem proper_of_right (h : Shows C (fun _ => 1) a s) {tr : List ((Op × Out) × Session)}
    (htr : IsTrace (Session.Performs C fun _ => 1) s tr) (hr : ReadsRight C a s tr) :
    Proper C a (tr.map fun x => x.1.1) := by
  induction tr generalizing a s with
  | nil => trivial
  | cons x tr ih =>
    have hf := h.performs htr.1
    refine ⟨?_, hf.defined.mp hr.2.2.1, ih hf.shows htr.2 hr.2.2.2⟩
    intro k T hk hs
    by_contra hT
    have hv : a.value k = some ⟨T, T.zero⟩ := by simp [Store.value, hs]
    have hread := (hf.read k T none hk hs).symm.trans (hr.1 k _ hk hv)
    simp only [Option.getD_none, Out.value.injEq, PropVariant_t.mk.injEq, heq_eq_eq,
      true_and] at hread
    exact raw_one_ne_zero T hT hread

/-- Whatever the memory holds, every read gives the last write or `T{}`, exactly when no
entry but a `std::string` is read before it is written to, and no `double` is stored in a key whose
integer type does not have it. -/
theorem reads_last_write_iff (C : Compiler) (ops : List Op) (h : Performable C {} ops) :
    (∀ memory tr, IsTrace (Session.Performs C memory) {} tr → tr.map (fun x => x.1.1) = ops →
      ReadsRight C {} {} tr) ↔ Proper C {} ops := by
  constructor
  · intro hr
    obtain ⟨tr, htr, rfl⟩ := (Shows.start C fun _ => 1).trace ops h
    exact proper_of_right (Shows.start _ _) htr (hr _ tr htr rfl)
  · intro hn memory tr htr hm
    exact (Shows.start C memory).right_of_proper htr (hm ▸ hn)

/-- A counter is set, and read through its reference and through a variant. -/
theorem usage_reads_last_write :
    ∃ tr, Session.trace .sample (fun _ => 1) {} [.get_prop .U64 "counter",
        .set .U64 "counter" (5 : UInt64), .get .U64 "counter", .get_prop_variant "counter"] =
      some tr ∧ ReadsRight .sample {} {} tr := by
  obtain ⟨tr, htr⟩ : ∃ tr, Session.trace .sample (fun _ => 1) {} [.get_prop .U64 "counter",
      .set .U64 "counter" (5 : UInt64), .get .U64 "counter", .get_prop_variant "counter"] =
    some tr := Option.isSome_iff_exists.mp (by decide)
  obtain ⟨hi, hm⟩ := Session.isTrace_of_trace htr
  have hn : Proper .sample {} [.get_prop .U64 "counter", .set .U64 "counter" (5 : UInt64),
      .get .U64 "counter", .get_prop_variant "counter"] := by
    simp only [Proper, Store.Casts, Op.read?, Store.step, Store.write]
    have hs : ∀ k T, some "counter" = some k → Function.update (fun _ => none) "counter"
        (some (⟨.U64, some (5 : UInt64)⟩ : (T : PropType) × Option T.Val)) k =
          some ⟨T, none⟩ → T = .string := by
      intro k T hk h
      cases hk
      rw [Function.update_self] at h
      cases h
    simpa using hs
  have hp : Performable .sample {} [.get_prop .U64 "counter", .set .U64 "counter" (5 : UInt64),
      .get .U64 "counter", .get_prop_variant "counter"] := by
    simp [Performable, Op.uses, Store.step, Store.write]
  exact ⟨tr, htr, (reads_last_write_iff .sample _ hp).mpr hn _ tr hi hm⟩

/-- A new property of type `S64` is read before anything is written to it. -/
theorem unwritten_reads_memory :
    (Session.trace .sample (fun _ => 1) {} [.get_prop .S64 "width", .get .S64 "width"]).map
        (fun tr => tr.map fun x => x.1.2) = some [.reference, .value ⟨.S64, (1 : Int64)⟩] ∧
      ¬ ∀ tr, Session.trace .sample (fun _ => 1) {} [.get_prop .S64 "width", .get .S64 "width"] =
        some tr → ReadsRight .sample {} {} tr := by
  refine ⟨by decide, ?_⟩
  intro h
  obtain ⟨tr, htr⟩ : ∃ tr, Session.trace .sample (fun _ => 1) {}
      [.get_prop .S64 "width", .get .S64 "width"] = some tr :=
    Option.isSome_iff_exists.mp (by decide)
  obtain ⟨hi, hm⟩ := Session.isTrace_of_trace htr
  have hn := proper_of_right (Shows.start _ _) hi (h tr htr)
  rw [hm] at hn
  exact absurd (hn.2.2.1 "width" .S64 rfl (by simp [Store.step, Store.write])) (by decide)

end Omulator.Props
