import Omulator.Props.Tags

/-!
# CLIParser (`src/util/CLIParser.cpp`)

What `parse_args` makes of the map that docopt returns, which is sorted by its keys.
-/

namespace Omulator.Props

open Lib

namespace CLIParser

/-- `docopt::value`. -/
inductive Value where
  | empty
  | bool (b : Bool)
  | long (n : Int64)
  | string (s : String)
  | stringList (ss : List String)
  deriving DecidableEq, Repr

def HEADLESS : String := "sys.headless"

def INTERACTIVE : String := "sys.interactive"

def VKDEBUG : String := "sys.vkdebug"

/-- Maps CLI switches to internal property names. -/
def cliArgToProp : List (String × String) :=
  [("--headless", HEADLESS), ("--interactive", INTERACTIVE), ("--vkdebug", VKDEBUG)]

/-- The parser's references, with the texts given to `logger_.warn`. -/
structure State where
  propertyMap_ : PropertyMap := {}
  warnings : List String := []
  deriving DecidableEq

def State.warn (msg : String) (s : State) : State := { s with warnings := s.warnings ++ [msg] }

variable (C : Compiler) (memory : String → UInt64)

/-- `propertyMap_.get_prop<T>(propName).set(v)`. -/
def set_prop (T : PropType) (propName : String) (v : T.Val) : M Unit := do
  let p ← PropertyMap.get_prop C memory T propName
  p.set v

/-- On the parser's map; an exception leaves the map as it is then. -/
def State.call (f : M Unit) (s : State) : Except Error Unit × State :=
  ((f.exec s.propertyMap_).1, { s with propertyMap_ := (f.exec s.propertyMap_).2 })

/-- The body of the loop. -/
def parse_arg (k : String) (v : Value) (s : State) : Except Error Unit × State :=
  if k = "--help" then (.ok (), s)
  else match cliArgToProp.lookup k with
    | some propName =>
      match v with
      | .bool b => s.call (set_prop C memory .bool propName b)
      | .long n => s.call (set_prop C memory .S64 propName n)
      | .string x => s.call (set_prop C memory .string propName x)
      | .empty | .stringList _ => (.ok (), s.warn ("Failed to parse arg: " ++ k))
    | none => (.ok (), s.warn ("Unknown CLI switch received: " ++ k))

def parse_args : List (String × Value) → State → Except Error Unit × State
  | [], s => (.ok (), s)
  | (k, v) :: docparsemap, s =>
    match parse_arg C memory k v s with
    | (.ok _, s') => parse_args docparsemap s'
    | (.error e, s') => (.error e, s')

/-! ### What an argument asks for -/

def Value.variant : Value → Option PropVariant_t
  | .bool b => some ⟨.bool, b⟩
  | .long n => some ⟨.S64, n⟩
  | .string s => some ⟨.string, s⟩
  | .empty | .stringList _ => none

def target (arg : String × Value) : Option (String × PropVariant_t) :=
  if arg.1 = "--help" then none
  else (cliArgToProp.lookup arg.1).bind fun propName => arg.2.variant.map (propName, ·)

def warning (arg : String × Value) : Option String :=
  if arg.1 = "--help" then none
  else match cliArgToProp.lookup arg.1 with
    | none => some ("Unknown CLI switch received: " ++ arg.1)
    | some _ => if arg.2.variant.isNone then some ("Failed to parse arg: " ++ arg.1) else none

def clash (m : PropertyMap) (arg : String × Value) : Option Error :=
  (target arg).bind fun x => (m.map_.lookup x.1).bind fun e =>
    if e.tag = C.TypeHash x.2.index then none else some (PropertyMap.mismatch x.1)

/-- The arguments before the first one that clashes. -/
def obeyed (m : PropertyMap) (docparsemap : List (String × Value)) : List (String × Value) :=
  docparsemap.takeWhile fun arg => (clash C m arg).isNone

variable {C memory} {m : PropertyMap} {s : State} {arg : String × Value} {key propName : String}
  {val : PropVariant_t}

theorem lookup_inj {k k' : String} (h : cliArgToProp.lookup k = some propName)
    (h' : cliArgToProp.lookup k' = some propName) : k = k' := by
  have hswitch : ∀ k, cliArgToProp.lookup k = some propName →
      k = "--headless" ∧ propName = HEADLESS ∨ k = "--interactive" ∧ propName = INTERACTIVE ∨
        k = "--vkdebug" ∧ propName = VKDEBUG := by
    intro k h
    rw [cliArgToProp, List.lookup_cons, List.lookup_cons, List.lookup_cons, List.lookup_nil] at h
    split at h
    · rename_i hk
      exact .inl ⟨beq_iff_eq.mp hk, (Option.some.inj h).symm⟩
    · split at h
      · rename_i hk
        exact .inr (.inl ⟨beq_iff_eq.mp hk, (Option.some.inj h).symm⟩)
      · split at h
        · rename_i hk
          exact .inr (.inr ⟨beq_iff_eq.mp hk, (Option.some.inj h).symm⟩)
        · cases h
  obtain ⟨rfl, hp⟩ | ⟨rfl, hp⟩ | ⟨rfl, hp⟩ := hswitch k h <;>
    obtain ⟨rfl, hp'⟩ | ⟨rfl, hp'⟩ | ⟨rfl, hp'⟩ := hswitch k' h' <;>
    first | rfl | exact absurd (hp.symm.trans hp') (by decide)

theorem target_lookup (h : target arg = some (propName, val)) :
    cliArgToProp.lookup arg.1 = some propName := by
  unfold target at h
  split at h
  · cases h
  · simp only [Option.bind_eq_some_iff, Option.map_eq_some_iff, Prod.mk.injEq] at h
    obtain ⟨name, hname, -, -, rfl, -⟩ := h
    exact hname

/-! ### One argument -/

theorem set_prop_exec (memory : String → UInt64)
    (hm : ∀ k e, m.map_.lookup k = some e → ∃ T v, e.Reads C T v) (T : PropType)
    (v : T.Val) (hclash : ∀ e, m.map_.lookup propName = some e → e.tag = C.TypeHash T) :
    ∃ e, e.Reads C T v ∧ (set_prop C memory T propName v).exec m = (.ok (), m.put propName e) := by
  cases h : m.map_.lookup propName with
  | none =>
    obtain ⟨e, he, hx⟩ := set_of_reads (m := m.put propName (.new C (C.TypeHash T)
      (memory propName))) (p := ⟨propName⟩) (by simp)
      (MapEntry.new_reads C T (memory propName)) v
    refine ⟨e, he, ?_⟩
    rw [set_prop, PropertyMap.get_prop, exec_bind_ok (get_prop_absent memory h), hx]
    simp [PropertyMap.put, AList.insert_insert]
  | some e =>
    obtain ⟨U, w, hr⟩ := hm propName e h
    have hU : U = T := hr.unique (hclash e h)
    subst hU
    obtain ⟨e', he', hx⟩ := set_of_reads (p := ⟨propName⟩) h hr v
    refine ⟨e', he', ?_⟩
    rw [set_prop, PropertyMap.get_prop, exec_bind_ok (get_prop_same memory h hr.1), hx]

theorem reads_put {e : MapEntry} {T : PropType} {v : T.Val}
    (hm : ∀ k e, m.map_.lookup k = some e → ∃ T v, e.Reads C T v) (he : e.Reads C T v) :
    ∀ k e', (m.put propName e).map_.lookup k = some e' → ∃ T v, e'.Reads C T v := by
  intro k e' hk
  by_cases hkk : k = propName
  · subst hkk
    rw [PropertyMap.lookup_put] at hk
    cases hk
    exact ⟨T, v, he⟩
  · rw [PropertyMap.lookup_put_ne _ _ hkk] at hk
    exact hm k e' hk

theorem set_prop_clash {e : MapEntry} {T : PropType} (v : T.Val)
    (h : m.map_.lookup propName = some e) (ht : e.tag ≠ C.TypeHash T) :
    (set_prop C memory T propName v).exec m = (.error (PropertyMap.mismatch propName), m) := by
  rw [set_prop, exec_bind, PropertyMap.get_prop, get_prop_other memory h ht]

theorem parse_arg_target (h : target arg = some (propName, val)) :
    parse_arg C memory arg.1 arg.2 s = s.call (set_prop C memory val.index propName val.val) := by
  have hlookup := target_lookup h
  unfold target at h
  split at h
  · cases h
  · rename_i hhelp
    rw [hlookup, Option.bind_some] at h
    rw [parse_arg, if_neg hhelp, hlookup]
    cases hv : arg.2 with
    | empty | stringList ss =>
      rw [hv] at h
      cases h
    | bool b | long n | string x =>
      rw [hv] at h
      cases h
      rfl

theorem parse_arg_none (h : target arg = none) : parse_arg C memory arg.1 arg.2 s =
    (.ok (), { s with warnings := s.warnings ++ (warning arg).toList }) := by
  unfold target at h
  unfold parse_arg warning
  split at h
  · rename_i hhelp
    simp [hhelp]
  · rename_i hhelp
    rw [if_neg hhelp, if_neg hhelp]
    cases hl : cliArgToProp.lookup arg.1 with
    | none => rfl
    | some propName =>
      rw [hl, Option.bind_some] at h
      cases hv : arg.2 with
      | empty | stringList ss => rfl
      | bool b | long n | string x =>
        rw [hv] at h
        cases h

theorem warning_none (h : target arg = some (propName, val)) : warning arg = none := by
  have hlookup := target_lookup h
  unfold target at h
  unfold warning
  split at h
  · cases h
  · rename_i hhelp
    rw [hlookup, Option.bind_some] at h
    rw [if_neg hhelp, hlookup]
    cases hv : arg.2.variant with
    | none =>
      rw [hv] at h
      cases h
    | some val => rfl

/-! ### The loop -/

structure Parsed (C : Compiler) (done : List (String × Value)) (s s' : State) : Prop where
  warnings : s'.warnings = s.warnings ++ done.filterMap warning
  set : ∀ key val, (done.filterMap target).lookup key = some val →
    ∃ e, s'.propertyMap_.map_.lookup key = some e ∧ e.Reads C val.index val.val
  kept : ∀ key, (done.filterMap target).lookup key = none →
    s'.propertyMap_.map_.lookup key = s.propertyMap_.map_.lookup key

theorem Parsed.nil : Parsed C [] s s where
  warnings := (List.append_nil _).symm
  set _ _ h := nomatch h
  kept _ _ := rfl

theorem target_ne {rest : List (String × Value)} {name : String} {v : PropVariant_t}
    (harg : arg.1 ∉ rest.map Prod.fst) (h : target arg = some (propName, val))
    {other : String × Value} (hother : other ∈ rest) (h' : target other = some (name, v)) :
    name ≠ propName := by
  rintro rfl
  have hsame : arg.1 = other.1 := lookup_inj (target_lookup h) (target_lookup h')
  exact harg (hsame ▸ List.mem_map_of_mem hother)

theorem clash_eq (h : target arg = some (propName, val)) : clash C m arg =
    (m.map_.lookup propName).bind fun e =>
      if e.tag = C.TypeHash val.index then none else some (PropertyMap.mismatch propName) := by
  unfold clash
  rw [h]
  rfl

theorem clash_none (ht : target arg = some (propName, val))
    (h : ∀ e, m.map_.lookup propName = some e → e.tag = C.TypeHash val.index) :
    clash C m arg = none := by
  rw [clash_eq ht]
  cases hl : m.map_.lookup propName with
  | none => rfl
  | some e => rw [Option.bind_some, if_pos (h e hl)]

theorem clash_put {e : MapEntry} (h : ∀ name v, target arg = some (name, v) → name ≠ propName) :
    clash C (m.put propName e) arg = clash C m arg := by
  cases ht : target arg with
  | none =>
    unfold clash
    rw [ht]
    rfl
  | some x =>
    rw [clash_eq ht, clash_eq ht, m.lookup_put_ne e (h x.1 x.2 ht)]

theorem lookup_targets {l : List (String × Value)}
    (h : ∀ a ∈ l, ∀ name v, target a = some (name, v) → name ≠ propName) :
    (l.filterMap target).lookup propName = none := by
  rw [List.lookup_eq_none_iff]
  intro x hx
  obtain ⟨a, ha, hax⟩ := List.mem_filterMap.mp hx
  exact bne_iff_ne.mpr (Ne.symm (h a ha x.1 x.2 hax))

theorem Parsed.cons_none {done : List (String × Value)} {s₁ s' : State}
    (h : Parsed C done s₁ s') (hs : s₁ = { s with warnings := s.warnings ++ (warning arg).toList })
    (ht : target arg = none) : Parsed C (arg :: done) s s' := by
  subst hs
  refine ⟨?_, ?_, ?_⟩
  · rw [h.warnings, List.append_assoc, List.filterMap_cons]
    cases warning arg with
    | none => rfl
    | some w => rfl
  · rw [List.filterMap_cons_none ht]
    exact h.set
  · rw [List.filterMap_cons_none ht]
    exact h.kept

theorem Parsed.cons_some {done : List (String × Value)} {s' : State} {e : MapEntry}
    (h : Parsed C done { s with propertyMap_ := s.propertyMap_.put propName e } s')
    (he : e.Reads C val.index val.val) (ht : target arg = some (propName, val))
    (hdone : ∀ a ∈ done, ∀ name v, target a = some (name, v) → name ≠ propName) :
    Parsed C (arg :: done) s s' := by
  have hlast : s'.propertyMap_.map_.lookup propName = some e := by
    rw [h.kept propName (lookup_targets hdone)]
    exact s.propertyMap_.lookup_put propName e
  refine ⟨?_, fun key w hw => ?_, fun key hw => ?_⟩
  · rw [h.warnings, List.filterMap_cons_none (warning_none ht)]
  · rw [List.filterMap_cons_some ht, List.lookup_cons] at hw
    split at hw
    · rename_i hkey
      cases hw
      rw [beq_iff_eq.mp hkey]
      exact ⟨e, hlast, he⟩
    · exact h.set key w hw
  · rw [List.filterMap_cons_some ht, List.lookup_cons] at hw
    split at hw
    · cases hw
    · rename_i hkey
      rw [h.kept key hw]
      exact s.propertyMap_.lookup_put_ne e (by simpa using hkey)

theorem parse_args_ok {rest : List (String × Value)} {s' : State}
    (h : parse_arg C memory arg.1 arg.2 s = (.ok (), s')) :
    parse_args C memory (arg :: rest) s = parse_args C memory rest s' := by
  show (match parse_arg C memory arg.1 arg.2 s with
    | (.ok _, s') => parse_args C memory rest s'
    | (.error e, s') => (.error e, s')) = _
  rw [h]

theorem parse_args_error {rest : List (String × Value)} {e : Error} {s' : State}
    (h : parse_arg C memory arg.1 arg.2 s = (.error e, s')) :
    parse_args C memory (arg :: rest) s = (.error e, s') := by
  show (match parse_arg C memory arg.1 arg.2 s with
    | (.ok _, s') => parse_args C memory rest s'
    | (.error e, s') => (.error e, s')) = _
  rw [h]

theorem parse_args_exec (docparsemap : List (String × Value)) (s : State)
    (hm : ∀ k e, s.propertyMap_.map_.lookup k = some e → ∃ T v, e.Reads C T v)
    (hkeys : (docparsemap.map Prod.fst).Nodup) {clashes : String × Value → Option Error}
    (hclashes : ∀ arg ∈ docparsemap, clashes arg = clash C s.propertyMap_ arg) :
    (parse_args C memory docparsemap s).1 =
      (docparsemap.findSome? clashes).elim (.ok ()) .error ∧
    Parsed C (docparsemap.takeWhile fun arg => (clashes arg).isNone) s
      (parse_args C memory docparsemap s).2 := by
  induction docparsemap generalizing s with
  | nil => exact ⟨rfl, .nil⟩
  | cons arg rest ih =>
    rw [List.map_cons, List.nodup_cons] at hkeys
    obtain ⟨harg, hrest⟩ := hkeys
    have hclash : clashes arg = clash C s.propertyMap_ arg := hclashes arg List.mem_cons_self
    have hclashes : ∀ a ∈ rest, clashes a = clash C s.propertyMap_ a := fun a ha =>
      hclashes a (List.mem_cons_of_mem _ ha)
    rw [List.findSome?_cons, List.takeWhile_cons, hclash]
    cases ht : target arg with
    | none =>
      have hnone : clash C s.propertyMap_ arg = none := by rw [clash, ht, Option.bind_none]
      rw [hnone, parse_args_ok (parse_arg_none ht)]
      obtain ⟨hresult, hparsed⟩ := ih
        { s with warnings := s.warnings ++ (warning arg).toList } hm hrest hclashes
      exact ⟨hresult, hparsed.cons_none rfl ht⟩
    | some x =>
      obtain ⟨propName, val⟩ := x
      have hne : ∀ a ∈ rest, ∀ name v, target a = some (name, v) → name ≠ propName :=
        fun a ha name v => target_ne harg ht ha
      have hset : parse_arg C memory arg.1 arg.2 s =
          s.call (set_prop C memory val.index propName val.val) := parse_arg_target ht
      rw [State.call] at hset
      by_cases hfits : ∀ e, s.propertyMap_.map_.lookup propName = some e →
          e.tag = C.TypeHash val.index
      · have hnone : clash C s.propertyMap_ arg = none := clash_none ht hfits
        obtain ⟨e, he, hx⟩ := set_prop_exec memory hm val.index val.val hfits
        rw [hx] at hset
        rw [hnone, parse_args_ok hset]
        obtain ⟨hresult, hparsed⟩ := ih
          { s with propertyMap_ := s.propertyMap_.put propName e } (reads_put hm he) hrest
          (fun a ha => (hclashes a ha).trans (clash_put (hne a ha)).symm)
        refine ⟨hresult, hparsed.cons_some he ht fun a ha => ?_⟩
        exact hne a (List.takeWhile_subset _ ha)
      · obtain ⟨e, hl, htag⟩ : ∃ e, s.propertyMap_.map_.lookup propName = some e ∧
            e.tag ≠ C.TypeHash val.index := by
          simpa only [not_forall, exists_prop] using hfits
        have hsome : clash C s.propertyMap_ arg = some (PropertyMap.mismatch propName) := by
          rw [clash_eq ht, hl, Option.bind_some, if_neg htag]
        rw [set_prop_clash val.val hl htag] at hset
        rw [hsome, parse_args_error hset]
        exact ⟨rfl, .nil⟩

end CLIParser

open CLIParser

variable {C : Compiler} {memory : String → UInt64}

/-- The switches set their properties, and nothing else is set; what is no switch or has no value is
warned of. An exception is thrown exactly when one of the properties has been made with another type
before; then the switches after it have not been looked at. -/
theorem parse_args_sets {session : Session} {docparsemap : List (String × Value)}
    (h : Run (Session.Performs C memory) {} session)
    (hkeys : (docparsemap.map Prod.fst).Nodup) :
    ∃ s : CLIParser.State, parse_args C memory docparsemap ⟨session.map, []⟩ =
        ((docparsemap.findSome? (clash C session.map)).elim (.ok ()) .error, s) ∧
      s.warnings = (obeyed C session.map docparsemap).filterMap warning ∧
      (∀ key val, ((obeyed C session.map docparsemap).filterMap target).lookup key = some val →
        (PropertyMap.get_prop_variant C memory key).exec s.propertyMap_ =
          (.ok val, s.propertyMap_)) ∧
      ∀ key, ((obeyed C session.map docparsemap).filterMap target).lookup key = none →
        s.propertyMap_.map_.lookup key = session.map.map_.lookup key := by
  have hsound : Sound C session := Sound.of_run h Sound.start
  obtain ⟨hresult, hparsed⟩ := parse_args_exec docparsemap ⟨session.map, []⟩
    hsound.reads hkeys fun _ _ => rfl
  refine ⟨_, Prod.ext hresult rfl, hparsed.warnings, fun key val hval => ?_, hparsed.kept⟩
  obtain ⟨e, he, hr⟩ := hparsed.set key val hval
  exact get_prop_variant_present memory he hr

def someArgs : List (String × Value) :=
  [("--debug", .bool true), ("--headless", .bool true), ("--interactive", .bool true),
    ("--vkdebug", .bool true)]

/-- `sys.interactive` has been made as a number. -/
theorem interactive_clashes :
    ∃ (session : Session) (s : CLIParser.State),
      Run (Session.Performs .sample fun _ => 0) {} session ∧
      parse_args .sample (fun _ => 0) someArgs ⟨session.map, []⟩ =
        (.error (PropertyMap.mismatch INTERACTIVE), s) ∧
      s.warnings = ["Unknown CLI switch received: --debug"] ∧
      (PropertyMap.get_prop_variant .sample (fun _ => 0) HEADLESS).exec s.propertyMap_ =
        (.ok ⟨.bool, true⟩, s.propertyMap_) ∧
      s.propertyMap_.map_.lookup VKDEBUG = none := by
  obtain ⟨⟨session, o⟩, hstep⟩ : ∃ t, Session.step .sample (fun _ => 0) {}
      (.get_prop .S64 INTERACTIVE) = some t := ⟨_, rfl⟩
  have hrun : Run (Session.Performs .sample fun _ => 0) {} session :=
    Run.next' (a := (.get_prop .S64 INTERACTIVE, o)) .start hstep
  have hkeys : (someArgs.map Prod.fst).Nodup := by decide
  obtain ⟨s, hs, hwarnings, hset, hkept⟩ := parse_args_sets hrun hkeys
  refine ⟨session, s, hrun, ?_, ?_, hset _ _ ?_, (hkept _ ?_).trans ?_⟩
  · rw [hs]
    cases hstep
    exact Prod.ext rfl rfl
  · rw [hwarnings]
    cases hstep
    decide
  · cases hstep
    rfl
  · cases hstep
    rfl
  · cases hstep
    rfl

end Omulator.Props
