import Omulator.Props.PropertyMap

/-!
# The tags of a PropertyMap

Every entry has the tag of one of the five types and the member of that type alive; a
call changes the entry of its own key at most, and never a tag. `set_prop_variant` stores a value
unless it would have to cast a `double` that the key's type does not have.
-/

namespace Omulator.Props

open Lib

variable (C : Compiler) (memory : String → UInt64)

/-- Every entry has the tag and the member of a property type, no error was logged, and a
reference has the type of the node it is in. -/
structure Sound (s : Session) : Prop where
  reads : ∀ k e, s.map.map_.lookup k = some e → ∃ T v, e.Reads C T v
  refs : ∀ T k, (T, k) ∈ s.refs → ∃ e, s.map.map_.lookup k = some e ∧ e.tag = C.TypeHash T
  errors : s.map.errors = []

/-- What a call can do to the map: the entry of one key is made, or gets another value. -/
inductive Touch (m : PropertyMap) (key : String) : PropertyMap → Prop where
  | same : Touch m key m
  | made {e : MapEntry} {T : PropType} {v : T.Val} : m.map_.lookup key = none →
      e.Reads C T v → Touch m key (m.put key e)
  | wrote {e e' : MapEntry} {T : PropType} {v w : T.Val} : m.map_.lookup key = some e →
      e.Reads C T v → e'.Reads C T w → Touch m key (m.put key e')

variable {C memory} {m m' : PropertyMap} {key : String} {s t : Session}

namespace Touch

theorem frame (h : Touch C m key m') {k : String} (hk : k ≠ key) :
    m'.map_.lookup k = m.map_.lookup k := by
  cases h with
  | same => rfl
  | made _ _ => exact m.lookup_put_ne _ hk
  | wrote _ _ _ => exact m.lookup_put_ne _ hk

theorem tag_kept (h : Touch C m key m') {k : String} {e : MapEntry}
    (he : m.map_.lookup k = some e) : ∃ e', m'.map_.lookup k = some e' ∧ e'.tag = e.tag := by
  by_cases hk : k = key
  · subst hk
    cases h with
    | same => exact ⟨e, he, rfl⟩
    | made hn _ =>
      rw [he] at hn
      cases hn
    | wrote ho hr hw =>
      rw [he] at ho
      cases ho
      exact ⟨_, m.lookup_put _ _, hw.1.trans hr.1.symm⟩
  · rw [h.frame hk]
    exact ⟨e, he, rfl⟩

theorem reads (h : Touch C m key m')
    (hm : ∀ k e, m.map_.lookup k = some e → ∃ T v, e.Reads C T v) :
    ∀ k e, m'.map_.lookup k = some e → ∃ T v, e.Reads C T v := by
  intro k e he
  by_cases hk : k = key
  · subst hk
    cases h with
    | same => exact hm k e he
    | made _ hr =>
      rw [m.lookup_put] at he
      cases he
      exact ⟨_, _, hr⟩
    | wrote _ _ hw =>
      rw [m.lookup_put] at he
      cases he
      exact ⟨_, _, hw⟩
  · rw [h.frame hk] at he
    exact hm k e he

theorem errors (h : Touch C m key m') : m'.errors = m.errors := by
  cases h with
  | same => rfl
  | made _ _ => rfl
  | wrote _ _ _ => rfl

end Touch

/-! ### What each call does to the map -/

theorem touch_get_prop (m : PropertyMap) (T : PropType) (key : String) :
    Touch C m key ((PropertyMap.get_prop_ C memory T key).exec m).2 := by
  cases h : m.map_.lookup key with
  | none =>
    rw [get_prop_absent memory h]
    exact .made h (MapEntry.new_reads C T _)
  | some e =>
    by_cases ht : e.tag = C.TypeHash T
    · rw [get_prop_same memory h ht]
      exact .same
    · rw [get_prop_other memory h ht]
      exact .same

theorem query_prop_same (m : PropertyMap) (key : String) :
    ((PropertyMap.query_prop_ key).exec m).2 = m := by
  cases h : m.map_.lookup key with
  | none => rw [query_absent h]
  | some e => rw [query_present h]

theorem get_prop_ok {T : PropType} {key : String} {p : PropertyValue T}
    (h : ((PropertyMap.get_prop_ C memory T key).exec m).1 = .ok p) :
    ∃ e, ((PropertyMap.get_prop_ C memory T key).exec m).2.map_.lookup key = some e ∧
      e.tag = C.TypeHash T := by
  cases hl : m.map_.lookup key with
  | none =>
    rw [get_prop_absent memory hl]
    exact ⟨_, m.lookup_put _ _, rfl⟩
  | some e =>
    by_cases ht : e.tag = C.TypeHash T
    · rw [get_prop_same memory hl ht]
      exact ⟨e, hl, ht⟩
    · rw [get_prop_other memory hl ht] at h
      cases h

section
variable (hm : ∀ k e, m.map_.lookup k = some e → ∃ T v, e.Reads C T v)
include hm

theorem get_prop_variant_same (key : String) :
    ((PropertyMap.get_prop_variant C memory key).exec m).2 = m := by
  cases h : m.map_.lookup key with
  | none => rw [get_prop_variant_absent memory h]
  | some e =>
    obtain ⟨T, v, hr⟩ := hm key e h
    rw [get_prop_variant_present memory h hr]

theorem touch_set_prop_variant (key : String) (val : PropVariant_t) :
    Touch C m key ((PropertyMap.set_prop_variant C memory key val).exec m).2 := by
  cases h : m.map_.lookup key with
  | none =>
    obtain ⟨e', he', hx⟩ := set_prop_variant_absent (C := C) memory h val
    rw [hx]
    exact .made h he'
  | some e =>
    obtain ⟨T, v, hr⟩ := hm key e h
    cases hw : C.extract_variant_ T val with
    | none =>
      rw [set_prop_variant_undefined memory h hr hw]
      exact .same
    | some w =>
      obtain ⟨e', he', hx⟩ := set_prop_variant_present memory h hr hw
      rw [hx]
      exact .wrote h hr he'

end

namespace Sound

theorem ref_reads (h : Sound C s) {T : PropType} {k : String} (hk : (T, k) ∈ s.refs) :
    ∃ e v, s.map.map_.lookup k = some e ∧ e.Reads C T v := by
  obtain ⟨e, he, ht⟩ := h.refs T k hk
  obtain ⟨U, v, hr⟩ := h.reads k e he
  have hU : U = T := hr.unique ht
  subst hU
  exact ⟨e, v, he, hr⟩

theorem touch (h : Sound C s) (op : Op) (hu : ∀ r ∈ op.uses, r ∈ s.refs) :
    Touch C s.map op.key ((op.call C memory).exec s.map).2 := by
  cases op with
  | get_prop T key =>
    rw [Op.call, exec_map]
    exact touch_get_prop s.map T key
  | get T key =>
    obtain ⟨e, v, he, hr⟩ := h.ref_reads (hu (T, key) rfl)
    rw [Op.call, exec_map, get_of_reads (p := ⟨key⟩) he hr]
    exact .same
  | set T key w =>
    obtain ⟨e, v, he, hr⟩ := h.ref_reads (hu (T, key) rfl)
    obtain ⟨e', he', hx⟩ := set_of_reads (p := ⟨key⟩) he hr w
    rw [Op.call, exec_map, hx]
    exact .wrote he hr he'
  | get_prop_variant key =>
    rw [Op.call, exec_map, get_prop_variant_same h.reads]
    exact .same
  | query_prop key =>
    rw [Op.call, exec_map, PropertyMap.query_prop, query_prop_same]
    exact .same
  | set_prop_variant key val =>
    rw [Op.call, exec_map]
    exact touch_set_prop_variant h.reads key val

theorem start : Sound C {} where
  reads k e he := by simp at he
  refs T k hk := by simp at hk
  errors := rfl

theorem next (h : Sound C s) {x : Op × Out} (hs : s.Performs C memory x t) :
    Sound C t ∧ Touch C s.map x.1.key t.map := by
  have ht : Touch C s.map x.1.key t.map := hs.map_eq.1 ▸ h.touch x.1 hs.uses
  refine ⟨⟨ht.reads h.reads, ?_, ht.errors.trans h.errors⟩, ht⟩
  have old : ∀ T k, (T, k) ∈ s.refs → ∃ e, t.map.map_.lookup k = some e ∧
      e.tag = C.TypeHash T := by
    intro T k hk
    obtain ⟨e, he, htag⟩ := h.refs T k hk
    obtain ⟨e', he', ht'⟩ := ht.tag_kept he
    exact ⟨e', he', ht'.trans htag⟩
  intro T k hk
  obtain ⟨hmap, ⟨e, -, -, hr⟩ | ⟨hok, hr⟩⟩ := hs.map_eq
  · rw [hr] at hk
    exact old T k hk
  · rw [hr, List.mem_append] at hk
    rcases hk with hk | hk
    · -- the reference that `get_prop` has just returned
      rcases x with ⟨op, out⟩
      cases op with
      | get_prop U key =>
        simp only [Op.gives, List.mem_singleton, Prod.mk.injEq] at hk
        obtain ⟨rfl, rfl⟩ := hk
        simp only [Op.call, exec_map, PropertyMap.get_prop] at hok hmap
        rw [hmap]
        cases hp : ((PropertyMap.get_prop_ C memory T k).exec s.map).1 with
        | ok p => exact get_prop_ok hp
        | error e =>
          rw [hp] at hok
          cases hok
      | _ => simp [Op.gives] at hk
    · exact old T k hk

theorem of_run (h : Run (Session.Performs C memory) s t) (hs : Sound C s) : Sound C t :=
  h.invariant (Sound C) hs fun _ _ _ hI _ hx => (hI.next hx).1

end Sound

theorem tag_kept_of_run (hs : Sound C s) (h : Run (Session.Performs C memory) s t)
    {k : String} {e : MapEntry} (he : s.map.map_.lookup k = some e) :
    ∃ e', t.map.map_.lookup k = some e' ∧ e'.tag = e.tag := by
  have hI : Sound C t ∧ ∃ e', t.map.map_.lookup k = some e' ∧ e'.tag = e.tag := by
    refine h.invariant (fun u => Sound C u ∧ ∃ e', u.map.map_.lookup k = some e' ∧ e'.tag = e.tag)
      ⟨hs, e, he, rfl⟩ ?_
    intro u x w hu _ hx
    obtain ⟨hu, e', he', ht⟩ := hu
    obtain ⟨hw, htouch⟩ := hu.next hx
    obtain ⟨e'', he'', ht'⟩ := htouch.tag_kept he'
    exact ⟨hw, e'', he'', ht'.trans ht⟩
  exact hI.2

/-- The call casts no `double` to a type that does not have it. -/
def Casts (C : Compiler) (s : Session) (x : Op × Out) : Prop :=
  ∀ k val e T, x.1 = .set_prop_variant k val → s.map.map_.lookup k = some e →
    e.tag = C.TypeHash T → Castable T val

/-- What the methods promise on a map: `logger_.error` is never called, so that no branch
for an invalid type is taken, no exception leaves a method other than `get_prop`, and
`set_prop_variant` returns true, exactly if it need not cast such a `double`. -/
structure Contract (C : Compiler) (memory : String → UInt64) (m : PropertyMap) : Prop where
  tag_valid : ∀ k e, m.map_.lookup k = some e → ∃ T, e.tag = C.TypeHash T
  no_errors : m.errors = []
  get_prop_throws : ∀ U k, (∃ err, ((PropertyMap.get_prop C memory U k).exec m).1 = .error err) ↔
    ∃ e, m.map_.lookup k = some e ∧ e.tag ≠ C.TypeHash U
  get_prop_failed : ∀ U k err, ((PropertyMap.get_prop C memory U k).exec m).1 = .error err →
    err = PropertyMap.mismatch k ∧ ((PropertyMap.get_prop C memory U k).exec m).2 = m
  query : ∀ k, (PropertyMap.query_prop k).exec m =
    (.ok ((m.map_.lookup k).isSome, (m.map_.lookup k).elim 0 MapEntry.tag), m)
  get_absent : ∀ k, m.map_.lookup k = none → (PropertyMap.get_prop_variant C memory k).exec m =
    (.ok ⟨.string, PropertyMap.KEY_NOT_FOUND_STR⟩, m)
  get_present : ∀ k e T, m.map_.lookup k = some e → e.tag = C.TypeHash T →
    ∃ v, e.storage.load T = some v ∧
      (PropertyMap.get_prop_variant C memory k).exec m = (.ok ⟨T, v⟩, m)
  set_absent : ∀ k val, m.map_.lookup k = none → ∃ e', e'.Reads C val.index val.val ∧
    (PropertyMap.set_prop_variant C memory k val).exec m = (.ok true, m.put k e')
  set_present : ∀ k e T val, m.map_.lookup k = some e → e.tag = C.TypeHash T →
    ((∃ v e', C.extract_variant_ T val = some v ∧ e'.Reads C T v ∧
      (PropertyMap.set_prop_variant C memory k val).exec m = (.ok true, m.put k e')) ↔
        Castable T val)

theorem Sound.contract (h : Sound C s) : Contract C memory s.map where
  tag_valid k e he := by
    obtain ⟨T, v, hr⟩ := h.reads k e he
    exact ⟨T, hr.1⟩
  no_errors := h.errors
  get_prop_throws U k := by
    rw [PropertyMap.get_prop]
    cases hl : s.map.map_.lookup k with
    | none => simp [get_prop_absent memory hl]
    | some e =>
      by_cases ht : e.tag = C.TypeHash U
      · simp [get_prop_same memory hl ht, ht]
      · simp [get_prop_other memory hl ht, ht]
  get_prop_failed U k err he := by
    rw [PropertyMap.get_prop] at he ⊢
    cases hl : s.map.map_.lookup k with
    | none =>
      rw [get_prop_absent memory hl] at he
      cases he
    | some e =>
      by_cases ht : e.tag = C.TypeHash U
      · rw [get_prop_same memory hl ht] at he
        cases he
      · rw [get_prop_other memory hl ht] at he ⊢
        cases he
        exact ⟨rfl, rfl⟩
  query k := by
    rw [PropertyMap.query_prop]
    cases hl : s.map.map_.lookup k with
    | none => exact query_absent hl
    | some e => exact query_present hl
  get_absent k hl := get_prop_variant_absent memory hl
  get_present k e T hl ht := by
    obtain ⟨U, v, hr⟩ := h.reads k e hl
    have hU : U = T := hr.unique ht
    subst hU
    exact ⟨v, hr.2, get_prop_variant_present memory hl hr⟩
  set_absent k val hl := set_prop_variant_absent memory hl val
  set_present k e T val hl ht := by
    obtain ⟨U, v, hr⟩ := h.reads k e hl
    have hU : U = T := hr.unique ht
    subst hU
    constructor
    · rintro ⟨w, e', hw, -, -⟩
      exact extract_variant_isSome_iff.mp (Option.isSome_iff_exists.mpr ⟨w, hw⟩)
    · intro hc
      obtain ⟨w, hw⟩ := Option.isSome_iff_exists.mp (extract_variant_isSome_iff.mpr hc)
      obtain ⟨e', he', hx⟩ := set_prop_variant_present memory hl hr hw
      exact ⟨w, e', hw, he', hx⟩

/-- In every state that calls on one map lead to which cast no `double` to a type that does not
have it, the methods keep their contract, and what has an entry keeps its tag from there on. -/
theorem tags_stable (C : Compiler) (memory : String → UInt64) (s : Session)
    (h : RunUnder (Session.Performs C memory) (Casts C) {} s) :
    Contract C memory s.map ∧
      ∀ t, RunUnder (Session.Performs C memory) (Casts C) s t →
        ∀ k e, s.map.map_.lookup k = some e →
          ∃ e', t.map.map_.lookup k = some e' ∧ e'.tag = e.tag := by
  have hs : Sound C s := Sound.of_run (h.weaken fun _ _ _ => trivial) Sound.start
  exact ⟨hs.contract, fun t ht k e he => tag_kept_of_run hs (ht.weaken fun _ _ _ => trivial) he⟩

def oneKey : Session := ⟨({} : PropertyMap).put "key" ⟨1, .word 0⟩, [(.S64, "key")]⟩

/-- A property is made as an `S64`, asked for as a `bool`, and set to 2.5. -/
theorem usage_tags_stable : ∃ s : Session, s.map.map_.lookup "key" = some ⟨1, .word 2⟩ ∧
    Contract .sample (fun _ => 0) s.map := by
  have hmade : Session.Performs .sample (fun _ => 0) {} (.get_prop .S64 "key", .reference)
      oneKey := rfl
  have hasked : Session.Performs .sample (fun _ => 0) oneKey (.get_prop .bool "key",
      .thrown (PropertyMap.mismatch "key")) oneKey := rfl
  have hset : Session.Performs .sample (fun _ => 0) oneKey
      (.set_prop_variant "key" ⟨.double, (⟨0x4004000000000000⟩ : Double)⟩, .set true)
      ⟨oneKey.map.put "key" ⟨1, .word 2⟩, oneKey.refs⟩ := rfl
  have hcasts : Casts .sample oneKey
      (.set_prop_variant "key" ⟨.double, (⟨0x4004000000000000⟩ : Double)⟩, .set true) := by
    intro k val e T hop he ht
    cases hop
    cases he
    have hT : PropType.S64 = T := Compiler.sample.distinct ht
    subst hT
    exact (extract_variant_isSome_iff (C := .sample)).mp rfl
  refine ⟨⟨oneKey.map.put "key" ⟨1, .word 2⟩, oneKey.refs⟩, rfl,
    (tags_stable .sample (fun _ => 0) _ ?_).1⟩
  exact ((RunUnder.start.next nofun hmade).next nofun hasked).next hcasts hset

/-- 1e300 is stored in a property of type `S64`. -/
theorem cast_undefined :
    (Session.trace .sample (fun _ => 0) {} [.get_prop .S64 "key",
      .set_prop_variant "key" ⟨.double, (⟨0x7E37E43C8800759C⟩ : Double)⟩]).map
        (fun tr => tr.map fun x => x.1.2) = some [.reference, .thrown .undefined] ∧
    ¬ ∀ (C : Compiler) (memory : String → UInt64) (s : Session),
      Run (Session.Performs C memory) {} s → ∀ k e T val, s.map.map_.lookup k = some e →
        e.tag = C.TypeHash T → ∃ v e', e'.Reads C T v ∧
          (PropertyMap.set_prop_variant C memory k val).exec s.map =
            (.ok true, s.map.put k e') := by
  refine ⟨by decide, fun hall => ?_⟩
  have hmade : Session.Performs .sample (fun _ => 0) {} (.get_prop .S64 "key", .reference)
      oneKey := rfl
  obtain ⟨v, e', -, hx⟩ := hall .sample (fun _ => 0) _ (Run.next' .start hmade) "key" _ .S64
    ⟨.double, (⟨0x7E37E43C8800759C⟩ : Double)⟩ rfl rfl
  have hthrown : (PropertyMap.set_prop_variant .sample (fun _ => 0) "key"
      ⟨.double, (⟨0x7E37E43C8800759C⟩ : Double)⟩).exec oneKey.map = (.error .undefined, _) :=
    set_prop_variant_undefined (T := .S64) (v := (0 : Int64)) _ rfl ⟨rfl, rfl⟩ (by decide)
  rw [hthrown] at hx
  cases hx

end Omulator.Props
