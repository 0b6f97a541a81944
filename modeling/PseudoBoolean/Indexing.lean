import PseudoBoolean.Evaluation

set_option autoImplicit false

namespace PseudoBoolean

structure Indexing where
  labels : SortedSet Label
deriving DecidableEq

namespace Indexing

def ofList (l : List Label) : Indexing :=
  ⟨SortedSet.ofList l⟩

def size (x : Indexing) : Nat :=
  x.labels.size

def index? (x : Indexing) (v : Label) : Option Nat :=
  x.labels.toList.idxOf? v

def label? (x : Indexing) (i : Nat) : Option Label :=
  x.labels.toList[i]?

def assign (x : Indexing) (bits : List Bool) : Assignment :=
  SortedMap.ofKeys x.labels bits

def toAssignment (x : Indexing) (bits : List Bool) : Except Failure Assignment :=
  if bits.length = x.size then .ok (x.assign bits)
  else .error (.wrongValueCount x.size bits.length)

def toBits (x : Indexing) (a : Assignment) : Except Failure (List Bool) :=
  x.labels.toList.mapM a.value

def ofMask (x : Indexing) (mask : Nat) : Assignment :=
  x.assign ((List.range x.size).map mask.testBit)

def mask (x : Indexing) (m : Monomial Label) : Nat :=
  (m.toList.filterMap x.index?).foldl (fun bits i => bits ||| 1 <<< i) 0

def encode (x : Indexing) (m : Monomial Label) : Monomial Nat :=
  SortedSet.ofList (m.toList.filterMap x.index?)

def decode (x : Indexing) (m : Monomial Nat) : Monomial Label :=
  SortedSet.ofList (m.toList.filterMap x.label?)

theorem index_lt_size {x : Indexing} {v : Label} {i : Nat} (found : x.index? v = some i) :
    i < x.size := by
  simp only [index?, List.idxOf?, List.findIdx?_eq_some_iff_getElem] at found
  exact found.1

theorem lt_size_of_mem_encode {x : Indexing} {m : Monomial Label} {i : Nat}
    (member : i ∈ x.encode m) : i < x.size := by
  obtain ⟨v, -, found⟩ := List.mem_filterMap.mp (SortedSet.mem_ofList.mp member)
  exact index_lt_size found

theorem degree_encode_le (x : Indexing) (m : Monomial Label) :
    (x.encode m).degree ≤ m.degree :=
  Nat.le_trans (SortedSet.size_ofList_le _) (List.length_filterMap_le _ _)

end Indexing

end PseudoBoolean
