import VowpalWabbit.IoBuf.Binary
import VowpalWabbit.Framework.Containers

/-! # Model fields

    `core/include/vw/core/model_utils.h`, in binary mode. `read_model_field`
    and `write_model_field` are families of overloads that call each other for
    the parts of nested values. `FieldType` has one constructor for each pair
    of overloads, and the two functions go by recursion over it.
-/

open Cpp

namespace VW.ModelUtils

/-- A plain type of `n` bytes, by its object representation. -/
def Pod (n : Nat) : Type := { bs : List Byte // bs.length = n }

/-- The types that can be fields of a model; no type has the size zero, or one
    above `PTRDIFF_MAX`. The flag says that equality of
    values is equality of their representation; a priority queue has only its
    elements, and no order that could make it an element of an ordered
    container. -/
inductive FieldType : Bool → Type → Type 1 where
  | pod (n : Nat) (hn : 0 < n ∧ n < 2 ^ 63) : FieldType true (Pod n)
  | string : FieldType true (List Byte)
  | set {T : Type} (c : Comparator T) : FieldType true T → FieldType true (OrderedSet c)
  | vector {p : Bool} {T : Type} : FieldType p T → FieldType p (List T)
  | v_array {p : Bool} {T : Type} : FieldType p T → FieldType p (List T)
  | pair {p q : Bool} {F S : Type} : FieldType p F → FieldType q S → FieldType (p && q) (F × S)
  | priority_queue {T : Type} (c : Comparator T) (push : PriorityQueue.Push c) :
      FieldType true T → FieldType false (PriorityQueue c)
  | map {p : Bool} {K V : Type} (c : Comparator K) :
      FieldType true K → FieldType p V → FieldType p (OrderedMap c V)
  | unique_ptr {p : Bool} {T : Type} : FieldType p T → FieldType p (Option T)

/-- The value of a default-initialised variable; the bytes of a plain one are
    not determined, and never used. -/
def FieldType.fresh : {p : Bool} → {T : Type} → FieldType p T → T
  | _, _, .pod n _ => ⟨List.replicate n 0, List.length_replicate⟩
  | _, _, .string => []
  | _, _, .set _ _ => OrderedSet.empty
  | _, _, .vector _ => []
  | _, _, .v_array _ => []
  | _, _, .pair f s => (f.fresh, s.fresh)
  | _, _, .priority_queue _ _ _ => PriorityQueue.empty
  | _, _, .map _ _ _ => OrderedMap.empty
  | _, _, .unique_ptr _ => none

/-! ## Reading -/

/-- The exception of `check_length_matches`. -/
def UNEXPECTED_END : String := "Unexpected end of file encountered."

/-- `read_model_field` of a plain type. -/
def read_pod (A : Allocator) (n : Nat) (b : IoBuf) : Outcome (Pod n × IoBuf) := do
  let (data, b) ← b.bin_read_fixed A n
  if h : data.length = n then return (⟨data, h⟩, b) else Outcome.throw_ UNEXPECTED_END

/-- `read_model_field` of the `uint32_t` in front of a container. -/
def read_size (A : Allocator) (b : IoBuf) : Outcome (Nat × IoBuf) := do
  let (size, b) ← read_pod A 4 b
  return (of_le_bytes size.1, b)

/-- `read_model_field` of a string. The number of bytes that `buf_read` found
    is added up, but not compared with the size. -/
def read_string (A : Allocator) (b : IoBuf) : Outcome (Nat × List Byte × IoBuf) := do
  let (str_size, b) ← read_size A b
  let (cs, count, b) ← b.buf_read A str_size TEXT
  let str ← load_bytes b.buffer.load cs str_size
  return (4 + count, str, b)

/-- The loop that all containers have: read an element, add it. -/
def read_elements {T C : Type} (read : IoBuf → Outcome (Nat × T × IoBuf)) (add : C → T → C) :
    (size bytes : Nat) → C → IoBuf → Outcome (Nat × C × IoBuf)
  | 0, bytes, c, b => .ok (bytes, c, b)
  | size + 1, bytes, c, b => do
    let (k, v, b) ← read b
    read_elements read add size (bytes + k) (add c v) b

/-- The size, and then the elements. -/
def read_container {T C : Type} (A : Allocator) (read : IoBuf → Outcome (Nat × T × IoBuf))
    (add : C → T → C) (c : C) (b : IoBuf) : Outcome (Nat × C × IoBuf) := do
  let (size, b) ← read_size A b
  read_elements read add size 4 c b

/-- `read_model_field`: the number of bytes, and the value that was in `var`
    after what was read has gone into it. -/
def read_model_field (A : Allocator) :
    {p : Bool} → {T : Type} → FieldType p T → T → IoBuf → Outcome (Nat × T × IoBuf)
  | _, _, .pod n _, _, b => do
    let (var, b) ← read_pod A n b
    return (n, var, b)
  | _, _, .string, _, b => read_string A b
  | _, _, .set _ t, set, b =>
    read_container A (read_model_field A t t.fresh) (fun s v => s.insert v) set b
  | _, _, .vector t, vec, b =>
    read_container A (read_model_field A t t.fresh) (fun l v => l ++ [v]) vec b
  | _, _, .v_array t, vec, b =>
    read_container A (read_model_field A t t.fresh) (fun l v => l ++ [v]) vec b
  | _, _, .pair f s, pair, b => do
    let (k₁, first, b) ← read_model_field A f pair.1 b
    let (k₂, second, b) ← read_model_field A s pair.2 b
    return (k₁ + k₂, (first, second), b)
  | _, _, .priority_queue _ push t, pq, b =>
    read_container A (read_model_field A t t.fresh) (fun q v => push.push v q) pq b
  | _, _, .map _ tk tv, map, b =>
    -- An entry is read as a `std::pair`.
    read_container A
      (fun b => do
        let (k₁, key, b) ← read_model_field A tk tk.fresh b
        let (k₂, value, b) ← read_model_field A tv tv.fresh b
        return (k₁ + k₂, (key, value), b))
      (fun m p => m.assign p.1 p.2) map b
  | _, _, .unique_ptr t, _, b => do
    let (is_null, b) ← read_pod A 1 b
    if is_null.1 ≠ [0] then return (1, none, b)
    else do
      let (k, v, b) ← read_model_field A t t.fresh b
      return (1 + k, some v, b)

/-! ## Writing -/

/-- `upstream_name.find("\x7b\x7d") != npos`. -/
def has_template (upstream_name : String) : Bool :=
  go upstream_name.toList
where
  go : List Char → Bool
    | c :: d :: cs => (c == '\x7b' && d == '\x7d') || go (d :: cs)
    | _ => false

/-- The check that every container makes on its name, in either mode. -/
def check_name (upstream_name kind : String) : Outcome Unit :=
  if has_template upstream_name then
    Outcome.throw_ ("Field template not allowed for " ++ kind ++ ".")
  else .ok ()

/-- `write_model_field` of the `uint32_t` in front of a container. -/
def write_size (size : Nat) (o : Output) : Output := o.bin_write_fixed (le_bytes 4 size)

/-- The loop that all containers have: write an element under its own name. -/
def write_elements {T : Type} (write : T → String → Output → Outcome (Nat × Output))
    (name : Nat → String) : (i bytes : Nat) → List T → Output → Outcome (Nat × Output)
  | _, bytes, [], o => .ok (bytes, o)
  | i, bytes, v :: vs, o => do
    let (k, o) ← write v (name i) o
    write_elements write name (i + 1) (bytes + k) vs o

/-- The name of an element, `"\x7b\x7d[\x7b\x7d]"`. -/
def element_name (upstream_name : String) (i : Nat) : String :=
  upstream_name ++ "[" ++ toString i ++ "]"

/-- `write_model_field` with `text` off: the number of bytes, and the output. -/
def write_model_field :
    {p : Bool} → {T : Type} → FieldType p T → T → String → Output → Outcome (Nat × Output)
  | _, _, .pod n _, var, _, o => .ok (n, o.bin_write_fixed var.1)
  | _, _, .string, str, upstream_name, o => do
    check_name upstream_name "string"
    return (4 + str.length, (write_size str.length o).bin_write_fixed str)
  | _, _, .set _ t, set, upstream_name, o => do
    check_name upstream_name "set"
    write_elements (write_model_field t) (element_name upstream_name) 0 4 set.elements
      (write_size set.elements.length o)
  | _, _, .vector t, vec, upstream_name, o => do
    check_name upstream_name "vector"
    -- The loop runs up to the size as a `uint32_t`.
    write_elements (write_model_field t) (element_name upstream_name) 0 4
      (vec.take (vec.length % 2 ^ 32)) (write_size vec.length o)
  | _, _, .v_array t, vec, upstream_name, o => do
    check_name upstream_name "v_array"
    write_elements (write_model_field t) (element_name upstream_name) 0 4
      (vec.take (vec.length % 2 ^ 32)) (write_size vec.length o)
  | _, _, .pair f s, pair, upstream_name, o => do
    check_name upstream_name "pair"
    let (k₁, o) ← write_model_field f pair.1 (upstream_name ++ ".first") o
    let (k₂, o) ← write_model_field s pair.2 (upstream_name ++ ".second") o
    return (k₁ + k₂, o)
  | _, _, .priority_queue _ _ t, pq, upstream_name, o => do
    check_name upstream_name "priority_queue"
    write_elements (write_model_field t) (element_name upstream_name) 0 4 pq.popped
      (write_size pq.popped.length o)
  | _, _, .map _ tk tv, map, upstream_name, o => do
    check_name upstream_name "map"
    write_elements
      (fun p i o => do
        let (k₁, o) ← write_model_field tk p.1 (upstream_name ++ ".key" ++ i) o
        let (k₂, o) ← write_model_field tv p.2 (upstream_name ++ "[key" ++ i ++ "]") o
        return (k₁ + k₂, o))
      toString 0 4 map.entries (write_size map.entries.length o)
  | _, _, .unique_ptr t, ptr, upstream_name, o =>
    match ptr with
    | none => .ok (1, o.bin_write_fixed [1])
    | some v => do
      let (k, o) ← write_model_field t v upstream_name (o.bin_write_fixed [0])
      return (1 + k, o)

end VW.ModelUtils
