import Omulator.Vk.GPUBuffer

/-!
# SimpleMesh (`include/omulator/vkmisc/SimpleMesh.hpp`, `src/vkmisc/SimpleMesh.cpp`)

What `tinyobj::LoadObj` makes of a file is a parameter. A vector is a list; an access by `[]` that
is not in its bounds is undefined, as an overflow of `int` is.
-/

namespace Omulator.Vk

inductive Outcome (α : Type) where
  /-- undefined behaviour, or an assertion that fails -/
  | undefined
  | bad_alloc
  | throws (e : Exn)
  | returns (a : α)
  deriving DecidableEq, Repr

namespace Outcome
variable {α β : Type}

def andThen (x : Outcome α) (f : α → Outcome β) : Outcome β :=
  match x with
  | .undefined => .undefined
  | .bad_alloc => .bad_alloc
  | .throws e => .throws e
  | .returns a => f a

instance : Monad Outcome where
  pure := .returns
  bind := andThen

@[simp] theorem returns_bind (a : α) (f : α → Outcome β) : (returns a >>= f) = f a := rfl

@[simp] theorem undefined_bind (f : α → Outcome β) : (undefined >>= f) = undefined := rfl

@[simp] theorem bad_alloc_bind (f : α → Outcome β) : (bad_alloc >>= f) = bad_alloc := rfl

instance : LawfulMonad Outcome := LawfulMonad.mk' _
  (fun x => by cases x <;> rfl) (fun _ _ => rfl) (fun x _ _ => by cases x <;> rfl)

@[simp] theorem pure_eq (a : α) : (pure a : Outcome α) = returns a := rfl

end Outcome

/-! ### What the loader returns -/

namespace tinyobj

structure index_t where
  vertex_index : Int32
  normal_index : Int32
  deriving DecidableEq, Repr

structure mesh_t where
  indices : List index_t
  num_face_vertices : List UInt32
  deriving DecidableEq, Repr

structure shape_t where
  mesh : mesh_t
  deriving DecidableEq, Repr

structure attrib_t (R : Type) where
  vertices : List R
  normals : List R
  /-- `std::vector::max_size` -/
  max_size : normals.length < 2 ^ 63

/-- What `LoadObj` leaves in the arguments it is given. -/
structure Loaded (R : Type) where
  attrib : attrib_t R
  shapes : List shape_t
  warnStr : String
  errStr : String
  /-- the indices are all in memory, with twelve bytes each -/
  addressable : 12 * (shapes.flatMap (·.mesh.indices)).length < 2 ^ 64

end tinyobj

open tinyobj

abbrev vec3 (R : Type) := R × R × R

/-- In the order of `VERTEX_IDX_POSITION`, `VERTEX_IDX_NORMAL` and `VERTEX_IDX_COLOR`. -/
structure SimpleVertex (R : Type) where
  position : vec3 R
  normal : vec3 R
  color : vec3 R
  deriving DecidableEq

structure SimpleMesh (R : Type) where
  buff_ : GPUBuffer (SimpleVertex R)

/-- What a run finds: for how many vertices there is memory in `vertices`, whether there is for
`localBuff_`, and what `vmaCreateBuffer` does. -/
structure LoadEnv where
  room : ℕ
  resizes : Bool
  vmaCreateBuffer : Allocator.VmaCreateBuffer

inductive LogEntry where
  | warn (msg : String)
  | error (msg : String)
  deriving DecidableEq, Repr

namespace SimpleMesh

variable {R : Type}

def eVertexBuffer : UInt32 := 128

def construct (elem : GPUBuffer.Elem (SimpleVertex R)) (env : LoadEnv) (logger allocator : ℕ)
    (size : UInt64) : Outcome (SimpleMesh R) :=
  if env.resizes then
    match GPUBuffer.construct elem env.vmaCreateBuffer logger allocator size eVertexBuffer
        .CPU_TO_GPU with
    | .error e => .throws e
    | .ok buff_ => .returns ⟨buff_⟩
  else .bad_alloc

/-- `std::vector::at`. -/
def vectorAt {α : Type} (xs : List α) (i : ℕ) : Outcome α :=
  match xs[i]? with
  | some x => .returns x
  | none => .throws .out_of_range

def set_vertex (mesh : SimpleMesh R) (idx : ℕ) (vertex : SimpleVertex R) :
    Outcome (SimpleMesh R) :=
  if mesh.buff_.isValid_ then
    if idx < mesh.buff_.localBuff_.length then
      .returns ⟨{ mesh.buff_ with localBuff_ := mesh.buff_.localBuff_.set idx vertex }⟩
    else .throws .out_of_range
  else .undefined

/-- What an operation on `int` gives. -/
def int (n : ℤ) : Outcome ℤ := if -2 ^ 31 ≤ n ∧ n < 2 ^ 31 then .returns n else .undefined

/-- `xs[static_cast<std::size_t>(3 * i + k)]`. -/
def component (xs : List R) (i : Int32) (k : ℤ) : Outcome R := do
  let n ← int (3 * i.toInt)
  let n ← int (n + k)
  match xs[(n % 2 ^ 64).toNat]? with
  | some x => .returns x
  | none => .undefined

/-- `vertices.emplace_back(SimpleVertex{..})`. -/
def emplace_back (room : ℕ) (vertices : List (SimpleVertex R)) (vertex : SimpleVertex R) :
    Outcome (List (SimpleVertex R)) :=
  if vertices.length < room then .returns (vertices ++ [vertex]) else .bad_alloc

/-- The vertex that `idx` stands for, as it is read. -/
def read_vertex (attrib : attrib_t R) (idx : index_t) : Outcome (SimpleVertex R) := do
  let vx ← component attrib.vertices idx.vertex_index 0
  let vy ← component attrib.vertices idx.vertex_index 1
  let vz ← component attrib.vertices idx.vertex_index 2
  let nx ← component attrib.normals idx.normal_index 0
  let ny ← component attrib.normals idx.normal_index 1
  let nz ← component attrib.normals idx.normal_index 2
  return ⟨(vx, vy, vz), (nx, ny, nz), (nx, ny, nz)⟩

/-- One round of the loop over `v`. -/
def load_corner (room : ℕ) (attrib : attrib_t R) (shape : shape_t) (indexOffset : ℕ)
    (vertices : List (SimpleVertex R)) (v : ℕ) : Outcome (List (SimpleVertex R)) := do
  let idx ← vectorAt shape.mesh.indices (indexOffset + v)
  let vertex ← read_vertex attrib idx
  emplace_back room vertices vertex

/-- One round of the loop over `f`, with `vertices` and `indexOffset`. -/
def load_face (room : ℕ) (attrib : attrib_t R) (shape : shape_t)
    (st : List (SimpleVertex R) × ℕ) (_ : ℕ) : Outcome (List (SimpleVertex R) × ℕ) := do
  let fv := 3
  let vertices ← (List.range fv).foldlM (load_corner room attrib shape st.2) st.1
  return (vertices, st.2 + fv)

def load_shape (room : ℕ) (attrib : attrib_t R) (vertices : List (SimpleVertex R))
    (shape : shape_t) : Outcome (List (SimpleVertex R)) := do
  let faces := List.range shape.mesh.num_face_vertices.length
  let st ← faces.foldlM (load_face room attrib shape) (vertices, 0)
  return st.1

def load_vertices (room : ℕ) (attrib : attrib_t R) (shapes : List shape_t) :
    Outcome (List (SimpleVertex R)) :=
  shapes.foldlM (load_shape room attrib) []

def set_vertices (mesh : SimpleMesh R) (vertices : List (SimpleVertex R)) :
    Outcome (SimpleMesh R) :=
  (List.range vertices.length).foldlM (fun mesh i => do
    let vertex ← vectorAt vertices i
    mesh.set_vertex i vertex) mesh

/-- With what it logs. -/
def load_obj (LoadObj : String → Loaded R) (elem : GPUBuffer.Elem (SimpleVertex R))
    (env : LoadEnv) (logger allocator : ℕ) (filepath : String) :
    List LogEntry × Outcome (SimpleMesh R) :=
  let loaded := LoadObj filepath
  let log := if loaded.warnStr ≠ "" then [.warn loaded.warnStr] else []
  if loaded.errStr ≠ "" then
    (log ++ [.error loaded.errStr], .throws (.runtime_error loaded.errStr))
  else
    (log, do
      let vertices ← load_vertices env.room loaded.attrib loaded.shapes
      let newMesh ← construct elem env logger allocator (UInt64.ofNat vertices.length)
      newMesh.set_vertices vertices)

/-! ### What it should load -/

/-- The corners, in order over shapes, faces and the corners of a face. -/
def corners (shapes : List shape_t) : List index_t := shapes.flatMap (·.mesh.indices)

def triple (xs : List R) (i : Int32) : Option (vec3 R) :=
  if 0 ≤ i.toInt then
    match xs[3 * i.toInt.toNat]?, xs[3 * i.toInt.toNat + 1]?, xs[3 * i.toInt.toNat + 2]? with
    | some x, some y, some z => some (x, y, z)
    | _, _, _ => none
  else none

def vertexOf (attrib : attrib_t R) (idx : index_t) : Option (SimpleVertex R) :=
  match triple attrib.vertices idx.vertex_index, triple attrib.normals idx.normal_index with
  | some position, some normal => some ⟨position, normal, normal⟩
  | _, _ => none

/-- What `LoadObj` promises of a file that it loads. -/
structure Triangulated (loaded : Loaded R) : Prop where
  indices : ∀ shape ∈ loaded.shapes,
    shape.mesh.indices.length = 3 * shape.mesh.num_face_vertices.length
  vertex_index : ∀ idx ∈ corners loaded.shapes,
    0 ≤ idx.vertex_index.toInt ∧ 3 * idx.vertex_index.toInt + 3 ≤ loaded.attrib.vertices.length
  normal_index : ∀ idx ∈ corners loaded.shapes, idx.normal_index.toInt = -1 ∨
    0 ≤ idx.normal_index.toInt ∧ 3 * idx.normal_index.toInt + 3 ≤ loaded.attrib.normals.length

/-- Whatever a run finds, all that is read of the vectors is there, and the mesh, when there is
memory for it, has exactly the vertices of the corners. -/
def LoadsCorners (LoadObj : String → Loaded R) (elem : GPUBuffer.Elem (SimpleVertex R))
    (filepath : String) : Prop :=
  ∀ (env : LoadEnv) (logger allocator : ℕ), ∃ vertices : List (SimpleVertex R),
    vertices.map some =
      (corners (LoadObj filepath).shapes).map (vertexOf (LoadObj filepath).attrib) ∧
    (load_obj LoadObj elem env logger allocator filepath).2 =
      if env.room < vertices.length then .bad_alloc
      else do
        let mesh ← construct elem env logger allocator (UInt64.ofNat vertices.length)
        return ⟨{ mesh.buff_ with localBuff_ := vertices }⟩

/-- The corner has a normal, and `int` has its components' indices. -/
def Readable (idx : index_t) : Prop :=
  idx.normal_index.toInt ≠ -1 ∧ 3 * idx.vertex_index.toInt + 2 < 2 ^ 31 ∧
    3 * idx.normal_index.toInt + 2 < 2 ^ 31

instance (idx : index_t) : Decidable (Readable idx) := instDecidableAnd

/-! ### What is read of a corner -/

section
variable {attrib : attrib_t R} {idx : index_t} {xs : List R} {i : Int32} {k : ℤ} {x : R}

/-- What is computed is a value or undefined: nothing is thrown. -/
def Settled {α : Type} (m : Outcome α) : Prop := m = .undefined ∨ ∃ a, m = .returns a

theorem Settled.bind_undefined {α β : Type} {m : Outcome α} {f : α → Outcome β} (h : Settled m)
    (hf : ∀ a, f a = .undefined) : (m >>= f) = .undefined := by
  rcases h with h | ⟨a, h⟩
  · rw [h, Outcome.undefined_bind]
  · rw [h, Outcome.returns_bind, hf]

theorem int_of_fits {n : ℤ} (hl : -2 ^ 31 ≤ n) (hr : n < 2 ^ 31) : int n = .returns n :=
  if_pos ⟨hl, hr⟩

theorem int_of_overflow {n : ℤ} (h : 2 ^ 31 ≤ n) : int n = .undefined :=
  if_neg fun hn => absurd hn.2 (not_lt.mpr h)

theorem settled_int (n : ℤ) : Settled (int n) := by
  by_cases h : -2 ^ 31 ≤ n ∧ n < 2 ^ 31
  · exact .inr ⟨n, if_pos h⟩
  · exact .inl (if_neg h)

theorem settled_component : Settled (component xs i k) := by
  unfold component
  rcases settled_int (3 * i.toInt) with h | ⟨n, h⟩
  · rw [h]
    exact .inl rfl
  · rw [h, Outcome.returns_bind]
    rcases settled_int (n + k) with h | ⟨n, h⟩
    · rw [h]
      exact .inl rfl
    · rw [h, Outcome.returns_bind]
      cases xs[(n % 2 ^ 64).toNat]? with
      | none => exact .inl rfl
      | some x => exact .inr ⟨x, rfl⟩

theorem component_of_fits (hi : 0 ≤ i.toInt) (hk : 0 ≤ k) (hfits : 3 * i.toInt + k < 2 ^ 31)
    (hx : xs[3 * i.toInt.toNat + k.toNat]? = some x) : component xs i k = .returns x := by
  have hcast : ((3 * i.toInt + k) % 2 ^ 64).toNat = 3 * i.toInt.toNat + k.toNat := by
    rw [Int.emod_eq_of_lt (by omega) (by omega)]
    omega
  have hn : int (3 * i.toInt) = .returns (3 * i.toInt) := int_of_fits (by omega) (by omega)
  have hsum : int (3 * i.toInt + k) = .returns (3 * i.toInt + k) := int_of_fits (by omega) hfits
  rw [component, hn, Outcome.returns_bind, hsum, Outcome.returns_bind, hcast, hx]

theorem component_of_overflow (h : 2 ^ 31 ≤ 3 * i.toInt + k) :
    component xs i k = .undefined := by
  unfold component
  rcases settled_int (3 * i.toInt) with hn | ⟨n, hn⟩
  · rw [hn, Outcome.undefined_bind]
  · have hin : n = 3 * i.toInt := by
      unfold int at hn
      split at hn
      · exact (Outcome.returns.inj hn).symm
      · cases hn
    rw [hn, Outcome.returns_bind, hin, int_of_overflow h, Outcome.undefined_bind]

/-- `-3` is read as an index that no vector has. -/
theorem component_of_none (hi : i.toInt = -1) (hlen : xs.length < 2 ^ 63) :
    component xs i 0 = .undefined := by
  have hthree : 3 * i.toInt = -3 := by omega
  have hint : int (-3) = .returns (-3) := int_of_fits (by decide) (by decide)
  have hval : ((-3 : ℤ) % 2 ^ 64).toNat = 2 ^ 64 - 3 := by decide
  have hfar : xs.length ≤ ((-3 : ℤ) % 2 ^ 64).toNat := by
    rw [hval]
    omega
  rw [component, hthree, hint, Outcome.returns_bind, Int.add_zero, hint, Outcome.returns_bind,
    List.getElem?_eq_none hfar]

theorem triple_of_range (hi : 0 ≤ i.toInt) (hlen : 3 * i.toInt + 3 ≤ xs.length)
    (hfits : 3 * i.toInt + 2 < 2 ^ 31) : ∃ x y z, triple xs i = some (x, y, z) ∧
      component xs i 0 = .returns x ∧ component xs i 1 = .returns y ∧
      component xs i 2 = .returns z := by
  have h0 : 3 * i.toInt.toNat < xs.length := by omega
  have h1 : 3 * i.toInt.toNat + 1 < xs.length := by omega
  have h2 : 3 * i.toInt.toNat + 2 < xs.length := by omega
  refine ⟨xs[3 * i.toInt.toNat], xs[3 * i.toInt.toNat + 1], xs[3 * i.toInt.toNat + 2],
    ?_, ?_, ?_, ?_⟩
  · rw [triple, if_pos hi, List.getElem?_eq_getElem h0, List.getElem?_eq_getElem h1,
      List.getElem?_eq_getElem h2]
  · exact component_of_fits hi (by decide) (by omega) (List.getElem?_eq_getElem h0)
  · exact component_of_fits hi (by decide) (by omega) (List.getElem?_eq_getElem h1)
  · exact component_of_fits hi (by decide) hfits (List.getElem?_eq_getElem h2)

theorem read_vertex_of_readable (hvertex : 0 ≤ idx.vertex_index.toInt ∧
      3 * idx.vertex_index.toInt + 3 ≤ attrib.vertices.length)
    (hnormal : idx.normal_index.toInt = -1 ∨ 0 ≤ idx.normal_index.toInt ∧
      3 * idx.normal_index.toInt + 3 ≤ attrib.normals.length) (h : Readable idx) :
    ∃ vertex, vertexOf attrib idx = some vertex ∧ read_vertex attrib idx = .returns vertex := by
  obtain ⟨hne, hv, hn⟩ := h
  obtain ⟨hi, hlen⟩ := hnormal.resolve_left hne
  obtain ⟨vx, vy, vz, hpos, hx, hy, hz⟩ := triple_of_range hvertex.1 hvertex.2 hv
  obtain ⟨nx, ny, nz, hnorm, hnx, hny, hnz⟩ := triple_of_range hi hlen hn
  refine ⟨⟨(vx, vy, vz), (nx, ny, nz), (nx, ny, nz)⟩, ?_, ?_⟩
  · rw [vertexOf, hpos, hnorm]
  · simp only [read_vertex, hx, hy, hz, hnx, hny, hnz, Outcome.returns_bind, Outcome.pure_eq]

theorem read_vertex_of_not_readable (h : ¬ Readable idx) : read_vertex attrib idx = .undefined := by
  have hcases : 2 ^ 31 ≤ 3 * idx.vertex_index.toInt + 2 ∨ idx.normal_index.toInt = -1 ∨
      2 ^ 31 ≤ 3 * idx.normal_index.toInt + 2 := by
    by_contra hno
    simp only [not_or, not_le] at hno
    exact h ⟨hno.2.1, hno.1, hno.2.2⟩
  unfold read_vertex
  refine settled_component.bind_undefined fun _ => settled_component.bind_undefined fun _ => ?_
  rcases hcases with hv | hnormal
  · rw [component_of_overflow hv, Outcome.undefined_bind]
  · refine settled_component.bind_undefined fun _ => ?_
    rcases hnormal with hn | hn
    · rw [component_of_none hn attrib.max_size, Outcome.undefined_bind]
    · refine settled_component.bind_undefined fun _ => settled_component.bind_undefined fun _ => ?_
      rw [component_of_overflow hn, Outcome.undefined_bind]

end

/-! ### The loops -/

section
variable {room : ℕ} {attrib : attrib_t R} {shape : shape_t} {vertices : List (SimpleVertex R)}

def add_vertex (room : ℕ) (attrib : attrib_t R) (vertices : List (SimpleVertex R))
    (idx : index_t) : Outcome (List (SimpleVertex R)) := do
  let vertex ← read_vertex attrib idx
  emplace_back room vertices vertex

theorem load_corner_eq {indexOffset v : ℕ} {idx : index_t}
    (h : shape.mesh.indices[indexOffset + v]? = some idx) :
    load_corner room attrib shape indexOffset vertices v = add_vertex room attrib vertices idx := by
  rw [load_corner, vectorAt, h, Outcome.returns_bind, add_vertex]

theorem load_face_eq {indexOffset f : ℕ} {a b c : index_t} {rest : List index_t}
    (h : shape.mesh.indices.drop indexOffset = a :: b :: c :: rest) :
    load_face room attrib shape (vertices, indexOffset) f =
      ([a, b, c].foldlM (add_vertex room attrib) vertices >>= fun vs =>
        .returns (vs, indexOffset + 3)) := by
  have hat : ∀ v, shape.mesh.indices[indexOffset + v]? = (a :: b :: c :: rest)[v]? := by
    intro v
    rw [← h, List.getElem?_drop]
  have ha : ∀ vs, load_corner room attrib shape indexOffset vs 0 = add_vertex room attrib vs a :=
    fun _ => load_corner_eq (hat 0)
  have hb : ∀ vs, load_corner room attrib shape indexOffset vs 1 = add_vertex room attrib vs b :=
    fun _ => load_corner_eq (hat 1)
  have hc : ∀ vs, load_corner room attrib shape indexOffset vs 2 = add_vertex room attrib vs c :=
    fun _ => load_corner_eq (hat 2)
  have hrange : List.range 3 = [0, 1, 2] := rfl
  simp only [load_face, hrange, List.foldlM_cons, List.foldlM_nil, ha, hb, hc, Outcome.pure_eq]

theorem load_faces_eq (faces : List ℕ) {indexOffset : ℕ}
    (h : (shape.mesh.indices.drop indexOffset).length = 3 * faces.length) :
    faces.foldlM (load_face room attrib shape) (vertices, indexOffset) =
      ((shape.mesh.indices.drop indexOffset).foldlM (add_vertex room attrib) vertices >>= fun vs =>
        .returns (vs, indexOffset + 3 * faces.length)) := by
  induction faces generalizing indexOffset vertices with
  | nil =>
    rw [List.length_eq_zero_iff.mp h]
    rfl
  | cons f faces ih =>
    obtain ⟨a, b, c, rest, hrest⟩ : ∃ a b c rest,
        shape.mesh.indices.drop indexOffset = a :: b :: c :: rest := by
      match hd : shape.mesh.indices.drop indexOffset with
      | [] | [_] | [_, _] =>
        rw [hd, List.length_cons] at h
        simp only [List.length_nil, List.length_cons] at h
        omega
      | a :: b :: c :: rest => exact ⟨a, b, c, rest, rfl⟩
    have hdrop : shape.mesh.indices.drop (indexOffset + 3) = rest := by
      rw [← List.drop_drop, hrest]
      rfl
    have hlen : (shape.mesh.indices.drop (indexOffset + 3)).length = 3 * faces.length := by
      rw [hrest] at h
      rw [hdrop]
      simp only [List.length_cons] at h
      omega
    rw [List.foldlM_cons, load_face_eq hrest, hrest, bind_assoc,
      show a :: b :: c :: rest = [a, b, c] ++ rest from rfl, List.foldlM_append, bind_assoc]
    refine bind_congr fun vs => ?_
    rw [Outcome.returns_bind, ih hlen, hdrop, List.length_cons, Nat.mul_succ]
    refine bind_congr fun vs => ?_
    rw [Nat.add_assoc, Nat.add_comm 3]

theorem load_shape_eq
    (h : shape.mesh.indices.length = 3 * shape.mesh.num_face_vertices.length) :
    load_shape room attrib vertices shape =
      shape.mesh.indices.foldlM (add_vertex room attrib) vertices := by
  have hlen : (shape.mesh.indices.drop 0).length =
      3 * (List.range shape.mesh.num_face_vertices.length).length := by
    rw [List.drop_zero, List.length_range, h]
  simp only [load_shape, load_faces_eq _ hlen, List.drop_zero, bind_assoc, Outcome.returns_bind]
  exact bind_pure _

theorem load_shapes_eq {shapes : List shape_t} (h : ∀ shape ∈ shapes,
      shape.mesh.indices.length = 3 * shape.mesh.num_face_vertices.length) :
    shapes.foldlM (load_shape room attrib) vertices =
      (corners shapes).foldlM (add_vertex room attrib) vertices := by
  induction shapes generalizing vertices with
  | nil => rfl
  | cons shape shapes ih =>
    obtain ⟨hshape, hshapes⟩ := List.forall_mem_cons.mp h
    rw [List.foldlM_cons, load_shape_eq hshape, corners, List.flatMap_cons, List.foldlM_append]
    exact bind_congr fun vs => ih hshapes

theorem emplace_back_of_lt {vertex : SimpleVertex R} (h : vertices.length < room) :
    emplace_back room vertices vertex = .returns (vertices ++ [vertex]) := if_pos h

theorem add_vertices {cs : List index_t} (h : ∀ idx ∈ cs, ∃ vertex,
      vertexOf attrib idx = some vertex ∧ read_vertex attrib idx = .returns vertex) :
    ∃ xs : List (SimpleVertex R), xs.map some = cs.map (vertexOf attrib) ∧
      ∀ room vertices, vertices.length ≤ room →
        cs.foldlM (add_vertex room attrib) vertices =
          if room < vertices.length + xs.length then .bad_alloc else .returns (vertices ++ xs) := by
  induction cs with
  | nil =>
    refine ⟨[], rfl, ?_⟩
    intro room vertices hroom
    rw [List.length_nil, Nat.add_zero, if_neg (not_lt.mpr hroom), List.append_nil]
    rfl
  | cons idx cs ih =>
    obtain ⟨⟨vertex, hof, hread⟩, hcs⟩ := List.forall_mem_cons.mp h
    obtain ⟨xs, hmap, hfold⟩ := ih hcs
    refine ⟨vertex :: xs, by rw [List.map_cons, List.map_cons, hmap, hof], ?_⟩
    intro room vertices hroom
    rw [List.foldlM_cons, add_vertex, hread, Outcome.returns_bind, List.length_cons]
    by_cases hlt : vertices.length < room
    · have hlen : (vertices ++ [vertex]).length ≤ room := by
        rw [List.length_append, List.length_singleton]
        omega
      rw [emplace_back_of_lt hlt, Outcome.returns_bind, hfold room _ hlen, List.append_assoc,
        List.length_append, List.length_singleton, Nat.add_assoc, Nat.add_comm 1]
      rfl
    · rw [emplace_back, if_neg hlt, Outcome.bad_alloc_bind, if_pos (by omega)]

/-- With memory for all vertices, one that cannot be read is reached. -/
theorem add_vertices_undefined {cs : List index_t} (h : ∀ idx ∈ cs,
      Settled (read_vertex attrib idx)) {idx : index_t} (hidx : idx ∈ cs)
    (hbad : read_vertex attrib idx = .undefined) (hroom : vertices.length + cs.length ≤ room) :
    cs.foldlM (add_vertex room attrib) vertices = .undefined := by
  induction cs generalizing vertices with
  | nil => cases hidx
  | cons c cs ih =>
    obtain ⟨hc, hcs⟩ := List.forall_mem_cons.mp h
    rw [List.length_cons] at hroom
    rw [List.foldlM_cons, add_vertex]
    rcases hc with hc | ⟨vertex, hc⟩
    · rw [hc, Outcome.undefined_bind, Outcome.undefined_bind]
    · have hin : idx ∈ cs := by
        rcases List.mem_cons.mp hidx with heq | hin
        · rw [heq, hc] at hbad
          cases hbad
        · exact hin
      have hlen : (vertices ++ [vertex]).length + cs.length ≤ room := by
        rw [List.length_append, List.length_singleton]
        omega
      rw [hc, Outcome.returns_bind, emplace_back_of_lt (by omega), Outcome.returns_bind]
      exact ih hcs hin hlen

end

/-! ### The mesh -/

section
variable {elem : GPUBuffer.Elem (SimpleVertex R)} {env : LoadEnv} {logger allocator : ℕ}
  {size : UInt64} {mesh : SimpleMesh R} {vertices : List (SimpleVertex R)}

theorem construct_returns (h : construct elem env logger allocator size = .returns mesh) :
    mesh.buff_.isValid_ = true ∧ mesh.buff_.localBuff_.length = size.toNat := by
  unfold construct at h
  split at h
  · split at h
    · cases h
    · rename_i buff_ hb
      cases h
      simp only [GPUBuffer.construct] at hb
      split at hb
      · cases hb
      · cases hb
        exact ⟨rfl, List.length_replicate⟩
  · cases h

theorem construct_ne_undefined :
    construct elem env logger allocator size ≠ .undefined := by
  unfold construct
  split
  · split <;> nofun
  · nofun

theorem set_taken {α : Type} {xs ys : List α} {n : ℕ} (hn : n < xs.length)
    (hlen : ys.length = xs.length) :
    (xs.take n ++ ys.drop n).set n xs[n] = xs.take (n + 1) ++ ys.drop (n + 1) := by
  have htake : (xs.take n).length = n := List.length_take_of_le hn.le
  rw [List.set_append_right n xs[n] htake.le, htake, Nat.sub_self,
    List.drop_eq_getElem_cons (hlen.symm ▸ hn), List.set_cons_zero,
    List.take_succ_eq_append_getElem hn, List.append_assoc]
  rfl

theorem set_vertices_eq (hv : mesh.buff_.isValid_ = true)
    (hlen : mesh.buff_.localBuff_.length = vertices.length) :
    mesh.set_vertices vertices = .returns ⟨{ mesh.buff_ with localBuff_ := vertices }⟩ := by
  have hrounds : ∀ n ≤ vertices.length,
      (List.range n).foldlM (fun (m : SimpleMesh R) i => do
        let vertex ← vectorAt vertices i
        m.set_vertex i vertex) mesh =
      .returns ⟨{ mesh.buff_ with
        localBuff_ := vertices.take n ++ mesh.buff_.localBuff_.drop n }⟩ := by
    intro n
    induction n with
    | zero => exact fun _ => rfl
    | succ n ih =>
      intro hn
      have hin : n < (vertices.take n ++ mesh.buff_.localBuff_.drop n).length := by
        rw [List.length_append, List.length_take, List.length_drop]
        omega
      rw [List.range_succ, List.foldlM_append, ih (Nat.le_of_succ_le hn), Outcome.returns_bind,
        List.foldlM_cons, vectorAt, List.getElem?_eq_getElem hn, Outcome.returns_bind, set_vertex,
        if_pos hv, if_pos hin, set_taken hn hlen]
      rfl
  rw [set_vertices, hrounds _ le_rfl, List.take_length, List.drop_eq_nil_of_le hlen.le,
    List.append_nil]

end

/-! ### Which files are loaded as they should be -/

section
variable {LoadObj : String → Loaded R} {elem : GPUBuffer.Elem (SimpleVertex R)}
  {filepath : String}

theorem settled_read_vertex {attrib : attrib_t R} {idx : index_t}
    (hvertex : 0 ≤ idx.vertex_index.toInt ∧
      3 * idx.vertex_index.toInt + 3 ≤ attrib.vertices.length)
    (hnormal : idx.normal_index.toInt = -1 ∨ 0 ≤ idx.normal_index.toInt ∧
      3 * idx.normal_index.toInt + 3 ≤ attrib.normals.length) :
    Settled (read_vertex attrib idx) := by
  by_cases h : Readable idx
  · obtain ⟨vertex, _, hread⟩ := read_vertex_of_readable hvertex hnormal h
    exact .inr ⟨vertex, hread⟩
  · exact .inl (read_vertex_of_not_readable h)

theorem load_obj_eq (herr : (LoadObj filepath).errStr = "")
    (h : Triangulated (LoadObj filepath)) (env : LoadEnv) (logger allocator : ℕ) :
    (load_obj LoadObj elem env logger allocator filepath).2 =
      ((corners (LoadObj filepath).shapes).foldlM (add_vertex env.room (LoadObj filepath).attrib)
        [] >>= fun vertices =>
          construct elem env logger allocator (UInt64.ofNat vertices.length) >>= fun newMesh =>
            newMesh.set_vertices vertices) := by
  have hne : ¬ (LoadObj filepath).errStr ≠ "" := not_not_intro herr
  simp only [load_obj, if_neg hne, load_vertices, load_shapes_eq h.indices]

theorem loadsCorners_of_readable (herr : (LoadObj filepath).errStr = "")
    (h : Triangulated (LoadObj filepath))
    (hread : ∀ idx ∈ corners (LoadObj filepath).shapes, Readable idx) :
    LoadsCorners LoadObj elem filepath := by
  obtain ⟨vertices, hmap, hfold⟩ := add_vertices fun idx hidx =>
    read_vertex_of_readable (h.vertex_index idx hidx) (h.normal_index idx hidx) (hread idx hidx)
  have hlen : vertices.length = (corners (LoadObj filepath).shapes).length := by
    simpa using congrArg List.length hmap
  intro env logger allocator
  refine ⟨vertices, hmap, ?_⟩
  rw [load_obj_eq herr h, hfold env.room [] (Nat.zero_le _), List.length_nil, Nat.zero_add]
  by_cases hroom : env.room < vertices.length
  · rw [if_pos hroom, if_pos hroom, Outcome.bad_alloc_bind]
  · rw [if_neg hroom, if_neg hroom, Outcome.returns_bind, List.nil_append]
    cases hmesh : construct elem env logger allocator (UInt64.ofNat vertices.length) with
    | undefined => rfl
    | bad_alloc => rfl
    | throws e => rfl
    | returns mesh =>
      obtain ⟨hv, hbuff⟩ := construct_returns hmesh
      have hsize : (UInt64.ofNat vertices.length).toNat = vertices.length := by
        have haddr := (LoadObj filepath).addressable
        have hlt : vertices.length < 2 ^ 64 := by
          rw [hlen, corners]
          omega
        exact UInt64.toNat_ofNat_of_lt' hlt
      exact set_vertices_eq hv (hbuff.trans hsize)

theorem readable_of_loadsCorners (herr : (LoadObj filepath).errStr = "")
    (h : Triangulated (LoadObj filepath)) (hload : LoadsCorners LoadObj elem filepath) :
    ∀ idx ∈ corners (LoadObj filepath).shapes, Readable idx := by
  intro idx hidx
  by_contra hbad
  have hsettled : ∀ c ∈ corners (LoadObj filepath).shapes,
      Settled (read_vertex (LoadObj filepath).attrib c) := fun c hc =>
    settled_read_vertex (h.vertex_index c hc) (h.normal_index c hc)
  -- a run that does not run out of memory before it comes to the corner
  let env : LoadEnv := ⟨(corners (LoadObj filepath).shapes).length, false,
    fun _ _ => (.eSuccess, ⟨none, none⟩)⟩
  have hroom : ([] : List (SimpleVertex R)).length +
      (corners (LoadObj filepath).shapes).length ≤ env.room := by
    rw [List.length_nil, Nat.zero_add]
  obtain ⟨vertices, -, heq⟩ := hload env 0 0
  rw [load_obj_eq herr h, add_vertices_undefined hsettled hidx (read_vertex_of_not_readable hbad)
    hroom, Outcome.undefined_bind] at heq
  split at heq
  · cases heq
  · cases hmesh : construct elem env 0 0 (UInt64.ofNat vertices.length) with
    | undefined => exact construct_ne_undefined hmesh
    | bad_alloc | throws | returns =>
      rw [hmesh] at heq
      cases heq

/-- A file is loaded as it should be exactly when each of its corners has a normal, and no index of
a component overflows. -/
theorem loadsCorners_iff (LoadObj : String → Loaded R) (elem : GPUBuffer.Elem (SimpleVertex R))
    (hdoc : ∀ filepath, (LoadObj filepath).errStr = "" → Triangulated (LoadObj filepath))
    (filepath : String) (herr : (LoadObj filepath).errStr = "") :
    LoadsCorners LoadObj elem filepath ↔
      ∀ idx ∈ corners (LoadObj filepath).shapes, Readable idx :=
  ⟨readable_of_loadsCorners herr (hdoc filepath herr),
    loadsCorners_of_readable herr (hdoc filepath herr)⟩

end

def threeFaces (normal_index : Int32) : Loaded ℤ where
  attrib := ⟨[0, 0, 0, 1, 0, 0, 1, 1, 0, 0, 1, 0], [0, 0, 1], by decide⟩
  shapes :=
    [⟨⟨[⟨0, normal_index⟩, ⟨1, normal_index⟩, ⟨2, normal_index⟩, ⟨2, normal_index⟩,
        ⟨3, normal_index⟩, ⟨0, normal_index⟩], [3, 3]⟩⟩,
      ⟨⟨[⟨1, normal_index⟩, ⟨3, normal_index⟩, ⟨2, normal_index⟩], [3]⟩⟩]
  warnStr := ""
  errStr := ""
  addressable := by
    change 12 * 9 < 2 ^ 64
    decide

theorem triangulated_threeFaces {normal_index : Int32}
    (h : normal_index = 0 ∨ normal_index = -1) : Triangulated (threeFaces normal_index) := by
  rcases h with rfl | rfl
  · exact ⟨by decide, by decide, by decide⟩
  · exact ⟨by decide, by decide, by decide⟩

theorem loads_threeFaces :
    LoadsCorners (fun _ => threeFaces 0) ⟨36, ⟨(0, 0, 0), (0, 0, 0), (0, 0, 0)⟩⟩ "mesh.obj" :=
  (loadsCorners_iff (fun _ => threeFaces 0) ⟨36, ⟨(0, 0, 0), (0, 0, 0), (0, 0, 0)⟩⟩
    (fun _ _ => triangulated_threeFaces (.inl rfl)) "mesh.obj" rfl).mpr (by decide)

/-- Without normals, the first corner is read out of bounds. -/
theorem reads_no_normals :
    (∀ idx ∈ corners (threeFaces (-1)).shapes, idx.normal_index = -1) ∧
    read_vertex (threeFaces (-1)).attrib ⟨0, -1⟩ = .undefined ∧
    ¬ ∀ (LoadObj : String → Loaded ℤ) (elem : GPUBuffer.Elem (SimpleVertex ℤ)),
      (∀ filepath, (LoadObj filepath).errStr = "" → Triangulated (LoadObj filepath)) →
      ∀ filepath, (LoadObj filepath).errStr = "" → LoadsCorners LoadObj elem filepath := by
  have htri : Triangulated (threeFaces (-1)) := triangulated_threeFaces (.inr rfl)
  refine ⟨by decide, by decide, ?_⟩
  intro h
  have hload := h (fun _ => threeFaces (-1)) ⟨36, ⟨(0, 0, 0), (0, 0, 0), (0, 0, 0)⟩⟩
    (fun _ _ => htri) "mesh.obj" rfl
  have hread := readable_of_loadsCorners rfl htri hload ⟨0, -1⟩ (by decide)
  exact hread.1 (by decide)

end SimpleMesh
end Omulator.Vk
