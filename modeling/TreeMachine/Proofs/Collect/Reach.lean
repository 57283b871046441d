import TreeMachine.Proofs.Collect.Marking
import TreeMachine.Proofs.Types.Reading

/-! # What an image refers to

  The items that a collection may meet, and which item refers to which.  References are read
  off the arena as types direct, without a record of what has been met: an item is reached
  if a chain of references leads to it from a type or from a registered value.
-/

namespace TreeMachine

namespace Collect

/-- Something that can be referred to. -/
inductive Item where
  /-- A boxed value of a type. -/
  | object (addr : Addr) (t : Ty)
  | type (t : Ty)
  | node (n : Node)
  /-- The vector of the elements of a block. -/
  | vector (vec : Addr)
  | function (id : UInt64)
deriving DecidableEq

/-- The words that an item takes in the arena.  A function takes none, and neither does the
    value of a type without words. -/
inductive Occupies (h : Heap) : Item → Region → Prop where
  | object {addr : Addr} {t : Ty} {n : UInt64} (hn : h.size t = .ok n) (h0 : n ≠ 0) :
      Occupies h (.object addr t) ⟨addr, n⟩
  | type {t : Ty} {n : UInt64} (hn : h.recordWords t = .ok n) : Occupies h (.type t) ⟨t, n⟩
  | node {node : Node} {n : UInt64} (hn : h.nodeWords node = .ok n) :
      Occupies h (.node node) ⟨node, n⟩
  | vector {vec : Addr} {n : UInt64} (hn : h.vectorWords vec = .ok n) :
      Occupies h (.vector vec) ⟨vec, n⟩

/-- The words `ws` of a value of type `t` refer to an item.  Null refers to nothing, and the
    address of a frame belongs to a running function. -/
inductive ValueRefers (h : Heap) : List UInt64 → Ty → Item → Prop where
  | member {ws : List UInt64} {t m : Ty} {before after : List Ty} {i : Item}
      (hk : h.kind t = .ok (some .concatenation)) (hm : h.members t = .ok (before ++ m :: after))
      (hi : ValueRefers h ((ws.drop (before.map h.width).sum).take (h.width m)) m i) :
      ValueRefers h ws t i
  | pointer {ws : List UInt64} {t elem : Ty} {addr : Addr}
      (hk : h.kind t = .ok (some .pointer)) (hw : ws[0]? = some addr) (h0 : addr ≠ 0)
      (hframe : addr &&& Code.frameBit = 0) (he : h.elem t = .ok elem) :
      ValueRefers h ws t (.object addr elem)
  | dynamicType {ws : List UInt64} {t u : Ty} (hk : h.kind t = .ok (some .dynamic))
      (hw : ws[0]? = some u) (h0 : u ≠ 0) : ValueRefers h ws t (.type u)
  | dynamicObject {ws : List UInt64} {t u : Ty} {addr : Addr}
      (hk : h.kind t = .ok (some .dynamic)) (hw : ws[0]? = some u) (h0 : u ≠ 0)
      (hw' : ws[1]? = some addr) (h0' : addr ≠ 0) : ValueRefers h ws t (.object addr u)
  | ast {ws : List UInt64} {t : Ty} {n : Node} (hk : h.kind t = .ok (some .ast))
      (hw : ws[0]? = some n) (h0 : n ≠ 0) : ValueRefers h ws t (.node n)
  | type {ws : List UInt64} {t u : Ty} (hk : h.kind t = .ok (some .type))
      (hw : ws[0]? = some u) (h0 : u ≠ 0) : ValueRefers h ws t (.type u)
  | function {ws : List UInt64} {t : Ty} {id : UInt64} (hk : h.kind t = .ok (some .function))
      (hw : ws[0]? = some id) : ValueRefers h ws t (.function id)

/-- One item refers to another. -/
inductive Refers (h : Heap) (pool : Pool) : Item → Item → Prop where
  | object {addr : Addr} {t : Ty} {n : UInt64} {ws : List UInt64} {i : Item}
      (hn : h.size t = .ok n) (h0 : n ≠ 0) (hws : h.slice addr n = .ok ws)
      (hi : ValueRefers h ws t i) : Refers h pool (.object addr t) i
  | elem {t elem : Ty} (hk : h.kind t = .ok (some .pointer)) (he : h.elem t = .ok elem)
      (h0 : elem ≠ 0) : Refers h pool (.type t) (.type elem)
  | member {t m : Ty} {ms : List Ty} (hk : h.kind t = .ok (some .concatenation))
      (hms : h.members t = .ok ms) (hm : m ∈ ms) (h0 : m ≠ 0) :
      Refers h pool (.type t) (.type m)
  | preceding {n before : Node} {tag : Tag} (ht : h.tag n = .ok tag)
      (hb : h.preceding n = .ok before) (h0 : before ≠ 0) :
      Refers h pool (.node n) (.node before)
  | literalType {n : Node} {t : Ty} {addr : Addr} (ht : h.tag n = .ok .literal)
      (hv : h.literalValue n = .ok (t, addr)) (h0 : t ≠ 0) : Refers h pool (.node n) (.type t)
  | literalObject {n : Node} {t : Ty} {addr : Addr} (ht : h.tag n = .ok .literal)
      (hv : h.literalValue n = .ok (t, addr)) (h0 : addr ≠ 0) :
      Refers h pool (.node n) (.object addr t)
  | vector {n : Node} {vec : Addr} (ht : h.tag n = .ok .block) (hv : h.vector n = .ok vec)
      (h0 : vec ≠ 0) : Refers h pool (.node n) (.vector vec)
  | element {vec : Addr} {n length : UInt64} {es : List Node} {e : Node}
      (hn : h.vectorWords vec = .ok n) (hl : h.word vec = .ok length)
      (hes : h.slice (vec + Heap.vectorHeader) length = .ok es) (he : e ∈ es) (h0 : e ≠ 0) :
      Refers h pool (.vector vec) (.node e)
  | field {n e : Node} {tag : Tag} {i : Nat} (ht : h.tag n = .ok tag) (hl : tag ≠ .literal)
      (hb : tag ≠ .block) (hi : i < tag.schema.nodeFields) (he : h.field n i = .ok e)
      (h0 : e ≠ 0) : Refers h pool (.node n) (.node e)
  | ast {id : UInt64} {f : Function} (hf : pool.get? id = some f) (h0 : f.ast ≠ 0) :
      Refers h pool (.function id) (.node f.ast)
  | returnType {id : UInt64} {f : Function} (hf : pool.get? id = some f)
      (h0 : f.returnType ≠ 0) : Refers h pool (.function id) (.type f.returnType)
  | paramType {id : UInt64} {f : Function} (hf : pool.get? id = some f)
      (h0 : f.paramType ≠ 0) : Refers h pool (.function id) (.type f.paramType)

end Collect

open Collect (Item Occupies ValueRefers Refers)

namespace Image

/-- The item is reached from a type or a registered value. -/
inductive Reached (image : Image) : Item → Prop where
  | type {t : Ty} (ht : t ∈ image.heap.handles) : Reached image (.type t)
  | root {r : Root} {i : Item} (hr : r ∈ image.collector.values)
      (hi : ValueRefers image.heap r.toWords r.type i) : Reached image i
  | step {i j : Item} (hi : Reached image i) (hij : Refers image.heap image.pool i j) :
      Reached image j

end Image

end TreeMachine
