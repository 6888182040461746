import Omulator.Lib.Linear
import Omulator.Vk.Pipeline
import Mathlib.Logic.Function.Basic

/-!
# GPUBuffer and Allocator (`include/omulator/vkmisc/GPUBuffer.hpp`, `src/vkmisc/Allocator.cpp`)

The allocations of an Allocator are numbered in the order they are made in, and each buffer object
has an address. The members of a buffer that was moved from are as the source leaves them.
-/

namespace Omulator.Vk
open Lib

/-- `none` is the null handle. -/
structure AllocatedBuffer where
  handle : Option ℕ
  pAllocation : Option ℕ
  deriving DecidableEq, Repr

namespace Allocator

inductive Residency where
  | CPU_TO_GPU | GPU_ONLY | CPU_ONLY | GPU_TO_CPU | CPU_COPY | GPU_LAZILY_ALLOCATED | AUTO
  | AUTO_PREFER_DEVICE | AUTO_PREFER_HOST
  deriving DecidableEq, Repr

inductive VmaMemoryUsage where
  | VMA_MEMORY_USAGE_CPU_TO_GPU | VMA_MEMORY_USAGE_GPU_ONLY | VMA_MEMORY_USAGE_CPU_ONLY
  | VMA_MEMORY_USAGE_GPU_TO_CPU | VMA_MEMORY_USAGE_CPU_COPY
  | VMA_MEMORY_USAGE_GPU_LAZILY_ALLOCATED | VMA_MEMORY_USAGE_AUTO
  | VMA_MEMORY_USAGE_AUTO_PREFER_DEVICE | VMA_MEMORY_USAGE_AUTO_PREFER_HOST
  deriving DecidableEq, Repr

def residency_to_vma_usage : Residency → VmaMemoryUsage
  | .CPU_TO_GPU => .VMA_MEMORY_USAGE_CPU_TO_GPU
  | .GPU_ONLY => .VMA_MEMORY_USAGE_GPU_ONLY
  | .CPU_ONLY => .VMA_MEMORY_USAGE_CPU_ONLY
  | .GPU_TO_CPU => .VMA_MEMORY_USAGE_GPU_TO_CPU
  | .CPU_COPY => .VMA_MEMORY_USAGE_CPU_COPY
  | .GPU_LAZILY_ALLOCATED => .VMA_MEMORY_USAGE_GPU_LAZILY_ALLOCATED
  | .AUTO => .VMA_MEMORY_USAGE_AUTO
  | .AUTO_PREFER_DEVICE => .VMA_MEMORY_USAGE_AUTO_PREFER_DEVICE
  | .AUTO_PREFER_HOST => .VMA_MEMORY_USAGE_AUTO_PREFER_HOST

structure BufferCreateInfo where
  size : UInt64
  usage : UInt32
  deriving DecidableEq, Repr

/-- A call of `vmaCreateBuffer`: its result, and what it leaves in `buff` and `allocation`. -/
abbrev VmaCreateBuffer := BufferCreateInfo → VmaMemoryUsage → Result × AllocatedBuffer

def alloc (vmaCreateBuffer : VmaCreateBuffer) (bufferCreateInfo : BufferCreateInfo)
    (residency : Residency) : Except Exn AllocatedBuffer :=
  if bufferCreateInfo.size = 0 then
    .error (.runtime_error "Requested a VMA Buffer allocation with a size of zero")
  else
    let r := vmaCreateBuffer bufferCreateInfo (residency_to_vma_usage residency)
    match validate_vk_return "vmaCreateBuffer" r.1 with
    | .error e => .error e
    | .ok _ => .ok r.2

end Allocator

/-- `none` is a null pointer. -/
structure GPUBuffer (T : Type) where
  pLogger_ : Option ℕ
  pAllocator_ : Option ℕ
  allocation_ : AllocatedBuffer
  localBuff_ : List T
  size_ : UInt64
  uploadSize_ : UInt64
  isValid_ : Bool
  deriving DecidableEq

namespace GPUBuffer
open Allocator

variable {T : Type}

/-- What the code knows of `T`: its size in bytes, and `T{}`. -/
structure Elem (T : Type) where
  sizeof : UInt64
  zero : T

def construct (elem : Elem T) (vmaCreateBuffer : VmaCreateBuffer) (logger allocator : ℕ)
    (size : UInt64) (usage : UInt32) (residency : Residency) : Except Exn (GPUBuffer T) :=
  let uploadSize_ := size * elem.sizeof
  match alloc vmaCreateBuffer ⟨uploadSize_, usage⟩ residency with
  | .error e => .error e
  | .ok allocation_ => .ok {
      pLogger_ := some logger
      pAllocator_ := some allocator
      allocation_ := allocation_
      localBuff_ := List.replicate size.toNat elem.zero
      size_ := size
      uploadSize_ := uploadSize_
      isValid_ := true }

/-- `operator=` where `this != &rhs`: the object, of which nothing is read, and what is left of
`rhs`. -/
def move (rhs : GPUBuffer T) : GPUBuffer T × GPUBuffer T :=
  ({ rhs with isValid_ := true },
    { rhs with
      isValid_ := false
      pLogger_ := none
      pAllocator_ := none
      allocation_ := ⟨none, none⟩
      localBuff_ := [] })

end GPUBuffer

/-! ### Buffers on one Allocator -/

variable {T : Type}

structure Buffers (T : Type) where
  /-- the objects, by their addresses -/
  buffers : ℕ → Option (GPUBuffer T) := fun _ => none
  /-- how many allocations have been made -/
  made : ℕ := 0
  freed : List ℕ := []
  /-- `free` has been called through a null pointer -/
  undefined : Bool := false

inductive BufferOp where
  /-- `resizes`: there is memory for `localBuff_` -/
  | construct (i logger : ℕ) (size : UInt64) (usage : UInt32) (residency : Allocator.Residency)
      (resizes : Bool) (result : Result)
  | moveConstruct (i rhs : ℕ)
  | moveAssign (i rhs : ℕ)
  | destroy (i : ℕ)

namespace Buffers

def set (i : ℕ) (b : Option (GPUBuffer T)) (s : Buffers T) : Buffers T :=
  { s with buffers := Function.update s.buffers i b }

/-- `vmaCreateBuffer` with a given result. It makes an allocation if it succeeds. -/
def create (result : Result) (s : Buffers T) : Allocator.VmaCreateBuffer := fun _ _ =>
  (result, if result = .eSuccess then ⟨some s.made, some s.made⟩ else ⟨none, none⟩)

/-- The results it is documented to have: success, and the errors of the memory functions. -/
def CanResult (result : Result) : Prop :=
  result ≠ .eSuboptimalKHR ∧ result ≠ .eErrorOutOfDateKHR ∧ result ≠ .eTimeout

instance (result : Result) : Decidable (CanResult result) := instDecidableAnd

/-- `pAllocator_->free(allocation_)`. -/
def free (b : GPUBuffer T) (s : Buffers T) : Buffers T :=
  match b.pAllocator_ with
  | none => { s with undefined := true }
  | some _ => { s with freed := s.freed ++ b.allocation_.pAllocation.toList }

/-- `none` where an object is not there, or another one is. -/
def step (elem : GPUBuffer.Elem T) (allocator : ℕ) (op : BufferOp) (s : Buffers T) :
    Option (Buffers T) :=
  match op with
  | .construct i logger size usage residency resizes result =>
    if s.buffers i = none ∧ CanResult result then
      if resizes then
        match GPUBuffer.construct elem (s.create result) logger allocator size usage residency with
        | .error _ => some s
        | .ok b => some { s.set i (some b) with made := s.made + 1 }
      else some s
    else none
  | .moveConstruct i rhs =>
    match s.buffers i, s.buffers rhs with
    | none, some b => some ((s.set i (some b.move.1)).set rhs (some b.move.2))
    | _, _ => none
  | .moveAssign i rhs =>
    match s.buffers i, s.buffers rhs with
    | some _, some b =>
      if i ≠ rhs then some ((s.set i (some b.move.1)).set rhs (some b.move.2)) else some s
    | _, _ => none
  | .destroy i =>
    match s.buffers i with
    | some b => some ((if b.isValid_ then s.free b else s).set i none)
    | none => none

def Step (elem : GPUBuffer.Elem T) (allocator : ℕ) (s : Buffers T) (op : BufferOp)
    (t : Buffers T) : Prop := s.step elem allocator op = some t

def held (s : Buffers T) (i : ℕ) : Option ℕ :=
  (s.buffers i).bind fun b => if b.isValid_ then b.allocation_.pAllocation else none

def Live (s : Buffers T) (a : ℕ) : Prop := a < s.made ∧ a ∉ s.freed

def isValid (s : Buffers T) (i : ℕ) : Bool := (s.buffers i).any (·.isValid_)

/-- Every allocation has one valid buffer, until it is freed, and is freed once. -/
structure Owned (s : Buffers T) : Prop where
  linear : Linear s.held s.Live
  once : s.freed.Nodup
  nonNull : ∀ i b, s.buffers i = some b → b.isValid_ = true →
    b.pAllocator_ ≠ none ∧ b.allocation_.handle ≠ none ∧ b.allocation_.pAllocation ≠ none
  drained : (∀ i, s.buffers i = none) → ∀ a < s.made, a ∈ s.freed
  defined : s.undefined = false

end Buffers

/-- What moves a buffer moves one that is valid, and not onto another valid one. -/
def BufferOp.Careful (s : Buffers T) : BufferOp → Prop
  | .moveConstruct _ rhs => s.isValid rhs = true
  | .moveAssign i rhs => i = rhs ∨ s.isValid i = false ∧ s.isValid rhs = true
  | _ => True

/-! ### What a step does -/

namespace Buffers
variable {elem : GPUBuffer.Elem T} {allocator i rhs : ℕ} {s t : Buffers T} {b : GPUBuffer T}

@[simp] theorem set_self (b : Option (GPUBuffer T)) : (s.set i b).buffers i = b :=
  Function.update_self ..

theorem set_ne {j : ℕ} (b : Option (GPUBuffer T)) (hj : j ≠ i) :
    (s.set i b).buffers j = s.buffers j := Function.update_of_ne hj ..

theorem held_of_some (hb : s.buffers i = some b) :
    s.held i = if b.isValid_ then b.allocation_.pAllocation else none := by
  rw [held, hb, Option.bind_some]

theorem held_of_none (hb : s.buffers i = none) : s.held i = none := by
  rw [held, hb, Option.bind_none]

theorem held_congr (h : t.buffers i = s.buffers i) : t.held i = s.held i := by
  rw [held, held, h]

theorem isValid_of_some (hb : s.buffers i = some b) : s.isValid i = b.isValid_ := by
  simp [isValid, hb]

def moved (i rhs : ℕ) (b : GPUBuffer T) (s : Buffers T) : Buffers T :=
  (s.set i (some b.move.1)).set rhs (some b.move.2)

theorem moved_to (hne : i ≠ rhs) : (s.moved i rhs b).buffers i = some b.move.1 := by
  rw [moved, set_ne _ hne, set_self]

theorem moved_from : (s.moved i rhs b).buffers rhs = some b.move.2 := set_self _

theorem moved_ne {j : ℕ} (hi : j ≠ i) (hrhs : j ≠ rhs) :
    (s.moved i rhs b).buffers j = s.buffers j := by
  rw [moved, set_ne _ hrhs, set_ne _ hi]

theorem construct_ok {result : Result} {logger : ℕ} {size : UInt64} {usage : UInt32}
    {residency : Allocator.Residency} (hr : CanResult result)
    (hb : GPUBuffer.construct elem (s.create result) logger allocator size usage residency =
      .ok b) :
    b.isValid_ = true ∧ b.pAllocator_ = some allocator ∧
      b.allocation_ = ⟨some s.made, some s.made⟩ := by
  simp only [GPUBuffer.construct] at hb
  cases ha : Allocator.alloc (s.create result) ⟨size * elem.sizeof, usage⟩ residency with
  | error e =>
    rw [ha] at hb
    cases hb
  | ok allocation_ =>
    rw [ha] at hb
    cases hb
    refine ⟨rfl, rfl, ?_⟩
    simp only [Allocator.alloc] at ha
    split at ha
    · cases ha
    · obtain ⟨hsub, hdate, htime⟩ := hr
      simp only [create] at ha
      by_cases hok : result = .eSuccess
      · rw [hok, if_pos rfl] at ha
        cases ha
        rfl
      · simp [validate_vk_return, hsub, hdate, htime, hok] at ha

inductive Stepped (allocator : ℕ) (s : Buffers T) : BufferOp → Buffers T → Prop
  | failed {i logger : ℕ} {size : UInt64} {usage : UInt32} {residency : Allocator.Residency}
      {resizes : Bool} {result : Result} :
    Stepped allocator s (.construct i logger size usage residency resizes result) s
  | construct {i logger : ℕ} {size : UInt64} {usage : UInt32} {residency : Allocator.Residency}
      {resizes : Bool} {result : Result} {b : GPUBuffer T} (hi : s.buffers i = none)
      (hv : b.isValid_ = true) (hp : b.pAllocator_ = some allocator)
      (ha : b.allocation_ = ⟨some s.made, some s.made⟩) :
    Stepped allocator s (.construct i logger size usage residency resizes result)
      { s.set i (some b) with made := s.made + 1 }
  | moveConstruct {i rhs : ℕ} {b : GPUBuffer T} (hi : s.buffers i = none)
      (hb : s.buffers rhs = some b) :
    Stepped allocator s (.moveConstruct i rhs) (s.moved i rhs b)
  | itself {i : ℕ} : Stepped allocator s (.moveAssign i i) s
  | moveAssign {i rhs : ℕ} {b : GPUBuffer T} (hne : i ≠ rhs) (hb : s.buffers rhs = some b) :
    Stepped allocator s (.moveAssign i rhs) (s.moved i rhs b)
  | destroy {i : ℕ} {b : GPUBuffer T} (hb : s.buffers i = some b) :
    Stepped allocator s (.destroy i) ((if b.isValid_ then s.free b else s).set i none)

theorem step_cases {op : BufferOp} (hs : Step elem allocator s op t) :
    Stepped allocator s op t := by
  unfold Step step at hs
  cases op with
  | construct i logger size usage residency resizes result =>
    simp only at hs
    split at hs
    · rename_i hi
      split at hs
      · split at hs
        · cases hs
          exact .failed
        · rename_i b hb
          cases hs
          obtain ⟨hv, hp, ha⟩ := construct_ok hi.2 hb
          exact .construct hi.1 hv hp ha
      · cases hs
        exact .failed
    · cases hs
  | moveConstruct i rhs =>
    simp only at hs
    split at hs
    · rename_i b hi hb
      cases hs
      exact .moveConstruct hi hb
    · cases hs
  | moveAssign i rhs =>
    simp only at hs
    split at hs
    · rename_i _ b hi hb
      split at hs
      · rename_i hne
        cases hs
        exact .moveAssign hne hb
      · rename_i heq
        cases hs
        rw [not_ne_iff] at heq
        exact heq ▸ .itself
    · cases hs
  | destroy i =>
    simp only at hs
    split at hs
    · rename_i b hb
      cases hs
      exact .destroy hb
    · cases hs

/-! ### The allocations and their buffers -/

theorem linear_drained (h : Linear s.held s.Live) (hnone : ∀ i, s.buffers i = none) :
    ∀ a < s.made, a ∈ s.freed := by
  intro a ha
  by_contra hfreed
  obtain ⟨i, hi⟩ := h.kept a ⟨ha, hfreed⟩
  rw [held_of_none (hnone i)] at hi
  cases hi

/-- A buffer that is not valid has been moved from. -/
structure Inv (s : Buffers T) : Prop where
  owned : s.Owned
  earlier : ∀ a ∈ s.freed, a < s.made
  left : ∀ i b, s.buffers i = some b → b.isValid_ = false → b.pAllocator_ = none

theorem inv_start : Inv ({} : Buffers T) where
  owned :=
    { linear := ⟨nofun, nofun, fun _ ha => absurd ha.1 (Nat.not_lt_zero _)⟩
      once := List.nodup_nil
      nonNull := fun _ _ h => nomatch h
      drained := fun _ _ ha => nomatch ha
      defined := rfl }
  earlier := fun _ h => nomatch h
  left := fun _ _ h => nomatch h

theorem Owned.held_some (h : s.Owned) (hb : s.buffers i = some b) (hv : b.isValid_ = true) :
    ∃ a, b.allocation_.pAllocation = some a ∧ s.held i = some a := by
  obtain ⟨a, ha⟩ := Option.ne_none_iff_exists'.mp (h.nonNull i b hb hv).2.2
  refine ⟨a, ha, ?_⟩
  rw [held_of_some hb, if_pos hv, ha]

theorem held_of_not_valid (hv : s.isValid i = false) : s.held i = none := by
  cases hb : s.buffers i with
  | none => exact held_of_none hb
  | some b =>
    rw [isValid_of_some hb] at hv
    rw [held_of_some hb, hv, if_neg Bool.false_ne_true]

theorem set_forall {P : GPUBuffer T → Prop} (h : ∀ j b, s.buffers j = some b → P b)
    (hb : P b) : ∀ j c, (s.set i (some b)).buffers j = some c → P c := by
  intro j c hc
  by_cases hj : j = i
  · rw [hj, set_self] at hc
    cases hc
    exact hb
  · rw [set_ne _ hj] at hc
    exact h j c hc

theorem clear_forall {P : GPUBuffer T → Prop} (h : ∀ j b, s.buffers j = some b → P b) :
    ∀ j c, (s.set i none).buffers j = some c → P c := by
  intro j c hc
  by_cases hj : j = i
  · rw [hj, set_self] at hc
    cases hc
  · rw [set_ne _ hj] at hc
    exact h j c hc

theorem Inv.construct (h : Inv s) (hi : s.buffers i = none) (hv : b.isValid_ = true)
    (hp : b.pAllocator_ = some allocator) (ha : b.allocation_ = ⟨some s.made, some s.made⟩) :
    Inv { s.set i (some b) with made := s.made + 1 } := by
  have hnew : s.made ∉ s.freed := fun hm => Nat.lt_irrefl _ (h.earlier _ hm)
  have hlive : ∀ a, Live { s.set i (some b) with made := s.made + 1 } a ↔
      Live s a ∨ a = s.made := by
    intro a
    change a < s.made + 1 ∧ a ∉ s.freed ↔ (a < s.made ∧ a ∉ s.freed) ∨ a = s.made
    rw [Nat.lt_succ_iff_lt_or_eq]
    constructor
    · rintro ⟨hlt | heq, hf⟩
      · exact .inl ⟨hlt, hf⟩
      · exact .inr heq
    · rintro (⟨hlt, hf⟩ | heq)
      · exact ⟨.inl hlt, hf⟩
      · exact ⟨.inr heq, heq ▸ hnew⟩
  have hself : held { s.set i (some b) with made := s.made + 1 } i = some s.made := by
    have hset : { s.set i (some b) with made := s.made + 1 }.buffers i = some b := set_self _
    rw [held_of_some hset, if_pos hv, ha]
  have hlinear := h.owned.linear.give (held_of_none hi) (fun hm => Nat.lt_irrefl _ hm.1)
    (fun k hk => held_congr (set_ne (s := s) _ hk)) hself hlive
  refine ⟨⟨hlinear, h.owned.once, ?_, linear_drained hlinear, h.owned.defined⟩, ?_, ?_⟩
  · refine set_forall h.owned.nonNull fun _ => ?_
    rw [hp, ha]
    exact ⟨nofun, nofun, nofun⟩
  · exact fun a ha => Nat.lt_succ_of_lt (h.earlier a ha)
  · exact set_forall h.left fun hinv => absurd (hv.symm.trans hinv) nofun

theorem Inv.moved (h : Inv s) (hne : i ≠ rhs) (hi : s.isValid i = false)
    (hb : s.buffers rhs = some b) (hv : b.isValid_ = true) : Inv (s.moved i rhs b) := by
  obtain ⟨a, hba, hheld⟩ := h.owned.held_some hb hv
  have hlinear : Linear (s.moved i rhs b).held (s.moved i rhs b).Live := by
    refine h.owned.linear.pass hheld (held_of_not_valid hi) ?_ ?_ ?_ (fun _ => Iff.rfl)
    · exact fun k hr hk => held_congr (moved_ne hk hr)
    · rw [held_of_some moved_from]
      rfl
    · rw [held_of_some (moved_to hne)]
      exact hba
  refine ⟨⟨hlinear, h.owned.once, ?_, linear_drained hlinear, h.owned.defined⟩, h.earlier, ?_⟩
  · refine set_forall (set_forall h.owned.nonNull ?_) ?_
    · exact fun _ => h.owned.nonNull rhs b hb hv
    · exact fun hfalse => nomatch hfalse
  · refine set_forall (set_forall h.left ?_) ?_
    · exact fun hfalse => nomatch hfalse
    · exact fun _ => rfl

theorem Inv.destroy (h : Inv s) (hb : s.buffers i = some b) :
    Inv ((if b.isValid_ then s.free b else s).set i none) := by
  cases hv : b.isValid_ with
  | false =>
    rw [if_neg Bool.false_ne_true]
    have hnone : s.held i = none := held_of_not_valid ((isValid_of_some hb).trans hv)
    have hlinear : Linear (s.set i none).held (s.set i none).Live := by
      refine h.owned.linear.congr (fun k => ?_) (fun _ => Iff.rfl)
      by_cases hk : k = i
      · rw [hk, hnone]
        exact held_of_none (set_self _)
      · exact held_congr (set_ne _ hk)
    exact ⟨⟨hlinear, h.owned.once, clear_forall h.owned.nonNull, linear_drained hlinear,
      h.owned.defined⟩, h.earlier, clear_forall h.left⟩
  | true =>
    obtain ⟨a, hba, hheld⟩ := h.owned.held_some hb hv
    obtain ⟨p, hp⟩ := Option.ne_none_iff_exists'.mp (h.owned.nonNull i b hb hv).1
    have hfree : s.free b = { s with freed := s.freed ++ [a] } := by
      rw [free, hp, hba, Option.toList_some]
    obtain ⟨hlt, hnot⟩ := h.owned.linear.alive i a hheld
    have hlive : ∀ c, ((s.free b).set i none).Live c ↔ s.Live c ∧ c ≠ a := by
      intro c
      rw [hfree]
      change c < s.made ∧ c ∉ s.freed ++ [a] ↔ (c < s.made ∧ c ∉ s.freed) ∧ c ≠ a
      rw [List.mem_append, List.mem_singleton, not_or, and_assoc]
    have hframe : ∀ k, k ≠ i → ((s.free b).set i none).held k = s.held k := by
      intro k hk
      rw [hfree]
      exact held_congr (set_ne (s := s) _ hk)
    have hlinear := h.owned.linear.take hheld hframe (held_of_none (set_self _)) hlive
    rw [if_pos rfl]
    refine ⟨⟨hlinear, ?_, ?_, linear_drained hlinear, ?_⟩, ?_, ?_⟩
    · rw [hfree]
      exact List.Nodup.append h.owned.once (List.nodup_singleton a)
        (List.disjoint_singleton.mpr hnot)
    · rw [hfree]
      exact clear_forall (s := s) h.owned.nonNull
    · rw [hfree]
      exact h.owned.defined
    · rw [hfree]
      intro c hc
      rcases List.mem_append.mp hc with hc | hc
      · exact h.earlier c hc
      · rw [List.mem_singleton.mp hc]
        exact hlt
    · rw [hfree]
      exact clear_forall (s := s) h.left

/-! ### Careful moves -/

theorem ne_of_none (hi : s.buffers i = none) (hb : s.buffers rhs = some b) : i ≠ rhs := by
  intro heq
  rw [heq, hb] at hi
  cases hi

theorem Inv.step_careful {op : BufferOp} (h : Inv s) (hs : Step elem allocator s op t)
    (hc : op.Careful s) : Inv t := by
  cases step_cases hs with
  | failed | itself => exact h
  | construct hi hv hp ha => exact h.construct hi hv hp ha
  | moveConstruct hi hb =>
    exact h.moved (ne_of_none hi hb) (by rw [isValid, hi, Option.any_none]) hb
      ((isValid_of_some hb).symm.trans hc)
  | moveAssign hne hb =>
    obtain ⟨hi, hv⟩ := hc.resolve_left hne
    exact h.moved hne hi hb ((isValid_of_some hb).symm.trans hv)
  | destroy hb => exact h.destroy hb

/-- What is moved from a buffer that is not valid is called valid, without an allocator. -/
theorem Inv.valid_of_moved (h : Inv s) (hne : i ≠ rhs) (hb : s.buffers rhs = some b)
    (ht : (s.moved i rhs b).Owned) : s.isValid rhs = true := by
  rw [isValid_of_some hb, ← Bool.not_eq_false]
  intro hv
  exact (ht.nonNull i b.move.1 (moved_to hne) rfl).1 (h.left rhs b hb hv)

/-- What a valid buffer owned before another one is moved onto it is nobody's. -/
theorem Inv.not_valid_of_moved (h : Inv s) (hne : i ≠ rhs) (hb : s.buffers rhs = some b)
    (ht : (s.moved i rhs b).Owned) : s.isValid i = false := by
  rw [← Bool.not_eq_true]
  intro hi
  have hv : b.isValid_ = true := (isValid_of_some hb).symm.trans (h.valid_of_moved hne hb ht)
  obtain ⟨c, hc⟩ : ∃ c, s.buffers i = some c := by
    cases hc : s.buffers i with
    | none =>
      rw [isValid, hc, Option.any_none] at hi
      cases hi
    | some c => exact ⟨c, rfl⟩
  obtain ⟨a, _, hheld⟩ := h.owned.held_some hc ((isValid_of_some hc).symm.trans hi)
  obtain ⟨a', hba, hheld'⟩ := h.owned.held_some hb hv
  have hto : (s.moved i rhs b).held i = some a' := by
    rw [held_of_some (moved_to hne)]
    exact hba
  refine h.owned.linear.not_of_lost hheld ?_ ?_ (h.owned.linear.alive i a hheld) ht.linear
  · intro k hk ha
    by_cases hkr : k = rhs
    · rw [hkr, held_of_some moved_from] at ha
      cases ha
    · rwa [held_congr (moved_ne hk hkr)] at ha
  · rw [hto]
    intro haa
    exact hne (h.owned.linear.one i rhs a hheld (haa ▸ hheld'))

theorem careful_of_owned {op : BufferOp} (h : Inv s) (hs : Step elem allocator s op t)
    (ht : t.Owned) : op.Careful s := by
  cases step_cases hs with
  | moveConstruct hi hb => exact h.valid_of_moved (ne_of_none hi hb) hb ht
  | itself => exact .inl rfl
  | moveAssign hne hb =>
    exact .inr ⟨h.not_valid_of_moved hne hb ht, h.valid_of_moved hne hb ht⟩
  | failed | construct _ _ _ _ | destroy _ => trivial

/-- Buffers own their allocations linearly exactly in the runs that move with care. -/
theorem allocations_owned_iff (elem : GPUBuffer.Elem T) (allocator : ℕ)
    (tr : List (BufferOp × Buffers T)) (htr : IsTrace (Step elem allocator) {} tr) :
    StepsMeet (fun s op => op.Careful s) {} tr ↔ StatesMeet Owned tr := by
  have hexact : ∀ (s : Buffers T) (op : BufferOp) (t : Buffers T), Inv s →
      Step elem allocator s op t → (op.Careful s ↔ t.Owned) := fun _ _ _ h hs =>
    ⟨fun hc => (h.step_careful hs hc).owned, careful_of_owned h hs⟩
  have hkeep : ∀ (s : Buffers T) (op : BufferOp) (t : Buffers T), Inv s →
      Step elem allocator s op t → op.Careful s → Inv t := fun _ _ _ h hs hc =>
    h.step_careful hs hc
  exact steps_iff_states Inv hexact hkeep {} tr inv_start htr

/-- A buffer is moved into a new one, back to where it was, and destroyed. -/
theorem moved_and_back : ∃ tr, record (step (T := ℕ) ⟨8, 0⟩ 7)
      [.construct 0 1 3 16 .AUTO true .eSuccess, .moveConstruct 1 0, .moveAssign 0 1,
        .moveAssign 0 0, .destroy 1, .destroy 0] {} = some tr ∧ StatesMeet Owned tr := by
  obtain ⟨tr, htr⟩ : ∃ tr, record (step (T := ℕ) ⟨8, 0⟩ 7)
      [.construct 0 1 3 16 .AUTO true .eSuccess, .moveConstruct 1 0, .moveAssign 0 1,
        .moveAssign 0 0, .destroy 1, .destroy 0] {} = some tr := ⟨_, rfl⟩
  have hiff := allocations_owned_iff (T := ℕ) ⟨8, 0⟩ 7 tr (isTrace_of_record htr)
  cases htr
  exact ⟨_, rfl, hiff.mp ⟨trivial, rfl, .inr ⟨rfl, rfl⟩, .inl rfl, trivial, trivial, trivial⟩⟩

/-- One valid buffer is assigned to another: when both are gone the first allocation is still made.
And what is moved out of a buffer twice is freed through a null pointer. -/
theorem assigned_over :
    (follow (step (T := ℕ) ⟨8, 0⟩ 7) [.construct 0 1 3 16 .AUTO true .eSuccess,
      .construct 1 1 3 16 .AUTO true .eSuccess, .moveAssign 0 1, .destroy 0, .destroy 1] {}).map
        (fun s => (s.made, s.freed)) = some (2, [1]) ∧
    (follow (step (T := ℕ) ⟨8, 0⟩ 7) [.construct 0 1 3 16 .AUTO true .eSuccess,
      .moveConstruct 1 0, .moveConstruct 2 0, .destroy 2] {}).map
        (fun s => s.undefined) = some true ∧
    ¬ ∀ s : Buffers ℕ, Run (Step ⟨8, 0⟩ 7) {} s → Owned s := by
  refine ⟨by decide, by decide, ?_⟩
  intro h
  obtain ⟨s, hs⟩ : ∃ s, follow (step (T := ℕ) ⟨8, 0⟩ 7)
      [.construct 0 1 3 16 .AUTO true .eSuccess, .moveConstruct 1 0, .moveConstruct 2 0,
        .destroy 2] {} = some s := ⟨_, rfl⟩
  have hdef := (h s (run_of_follow hs)).defined
  cases hs
  exact absurd hdef (by decide)

end Buffers
end Omulator.Vk
