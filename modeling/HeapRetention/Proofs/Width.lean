-- The laws of the identifier width. The width is read in one place only, where
-- the size of a node is found: a wide reference takes eight bytes and a narrow
-- one four. So a wide graph is the narrow one with some sizes larger, none more
-- than doubled, and sums that are cut at the same ceiling keep to that.
import HeapRetention.Proofs.RetainedBytes
import HeapRetention.Proofs.Shape

namespace HeapRetention

/-! ## Counts that at most double -/

/-- The second count is as large as the first or larger, and at most twice as large. -/
structure AtMostDoubled (narrow wide : Nat) : Prop where
  le : narrow ≤ wide
  le_double : wide ≤ 2 * narrow

namespace AtMostDoubled

theorem refl (n : Nat) : AtMostDoubled n n := ⟨Nat.le_refl n, by omega⟩

theorem add {a a' b b' : Nat} (ha : AtMostDoubled a a') (hb : AtMostDoubled b b') :
    AtMostDoubled (a + b) (a' + b') := by
  obtain ⟨hle, hdouble⟩ := ha
  obtain ⟨hle', hdouble'⟩ := hb
  exact ⟨by omega, by omega⟩

theorem mul_left (n : Nat) {a a' : Nat} (h : AtMostDoubled a a') :
    AtMostDoubled (n * a) (n * a') := by
  refine ⟨Nat.mul_le_mul_left n h.le, ?_⟩
  calc n * a' ≤ n * (2 * a) := Nat.mul_le_mul_left n h.le_double
    _ = 2 * (n * a) := Nat.mul_left_comm n 2 a

/-- A ceiling for both keeps them so: it cuts the larger one at least as deep. -/
theorem cut {a a' : Nat} (h : AtMostDoubled a a') (most : Nat) :
    AtMostDoubled (min a most) (min a' most) := by
  obtain ⟨hle, hdouble⟩ := h
  exact ⟨by omega, by omega⟩

theorem sum {ι : Type} (s : Finset ι) {f f' : ι → Nat} (h : ∀ i, AtMostDoubled (f i) (f' i)) :
    AtMostDoubled (∑ i ∈ s, f i) (∑ i ∈ s, f' i) := by
  refine ⟨Finset.sum_le_sum fun i _ => (h i).le, ?_⟩
  rw [Finset.mul_sum]
  exact Finset.sum_le_sum fun i _ => (h i).le_double

end AtMostDoubled

/-! ## Sizes of nodes -/

theorem ValueType.size_doubled (type : ValueType) :
    AtMostDoubled (type.size .four).toNat (type.size .eight).toNat := by
  cases type with
  | object => exact ⟨by decide, by decide⟩
  | boolean | char | float | double | byte | short | int | long => exact AtMostDoubled.refl _

theorem Footprint.resolve_doubled (footprint : Footprint) :
    AtMostDoubled (footprint.resolve .four).toNat (footprint.resolve .eight).toNat := by
  cases footprint with
  | bytes count => exact AtMostDoubled.refl _
  | fields types =>
    unfold resolve
    rw [Bytes.toNat_total, Bytes.toNat_total]
    apply AtMostDoubled.cut
    induction types with
    | nil => exact AtMostDoubled.refl _
    | cons type rest ih => exact type.size_doubled.add ih
  | array element length =>
    unfold resolve
    rw [Bytes.toNat_mul, Bytes.toNat_mul]
    exact (element.size_doubled.mul_left _).cut _

/-- The node without its size. -/
def Node.unsized (node : Node) : NodeId × NodeKind × HeapId := (node.id, node.kind, node.heap)

/-! ## Graphs with wider identifiers -/

namespace HeapGraph

/-- The graphs differ in the sizes of their nodes alone, and there no size is more than doubled. -/
structure Widened (wide narrow : HeapGraph) : Prop where
  shape : wide.SameShape narrow
  heaps_eq : wide.heaps = narrow.heaps
  unsized_eq : ∀ w, (wide.node? w).map Node.unsized = (narrow.node? w).map Node.unsized
  own_doubled : ∀ heap w, AtMostDoubled (RetainedTable.own narrow heap w).toNat
    (RetainedTable.own wide heap w).toNat

theorem bytesWhere_widened {wide narrow : HeapGraph} (h : wide.Widened narrow) (heap : HeapId)
    (picked : Nat → Prop) :
    AtMostDoubled (narrow.bytesWhere heap picked) (wide.bytesWhere heap picked) := by
  rw [RetainedTable.bytesWhere_eq, RetainedTable.bytesWhere_eq, h.shape.size_eq]
  exact AtMostDoubled.sum _ (h.own_doubled heap)

end HeapGraph

namespace RetainedTable

section Widened

variable {t : DominatorTree} {wide narrow : HeapGraph} (h : wide.Widened narrow)
  (hwide : t.IsOf wide) (hnarrow : t.IsOf narrow)

include h hwide hnarrow

theorem size_widened (v : Nat) (heap : HeapId) :
    AtMostDoubled ((ofTree narrow t).size v heap).toNat ((ofTree wide t).size v heap).toNat := by
  rw [toNat_size hnarrow, toNat_size hwide, DominatorTree.guarded_eq hnarrow,
    DominatorTree.guarded_eq hwide]
  exact (HeapGraph.bytesWhere_widened h heap _).cut _

theorem sentinel_widened (heap : HeapId) :
    AtMostDoubled ((ofTree narrow t).sentinel heap).toNat
      ((ofTree wide t).sentinel heap).toNat := by
  rw [toNat_sentinel hnarrow, toNat_sentinel hwide, DominatorTree.reachable_eq hnarrow,
    DominatorTree.reachable_eq hwide]
  exact (HeapGraph.bytesWhere_widened h heap _).cut _

end Widened

end RetainedTable

namespace Recording

/-- A recording is built with wide identifiers into a graph that differs from the narrow one in the
sizes of its nodes alone. -/
theorem widened_built {calls : List Call} {narrow wide : HeapGraph}
    (hnarrow : (replay .four calls).build = .ok narrow)
    (hwide : (replay .eight calls).build = .ok wide) : wide.Widened narrow := by
  refine ⟨sameShape_replay hwide hnarrow rfl rfl rfl, ?_, ?_, ?_⟩
  · obtain ⟨heaps_eq, hroom⟩ := heaps_built hnarrow
    obtain ⟨heaps_eq', hroom'⟩ := heaps_built hwide
    rw [heaps_eq, heaps_eq', ← Array.toList_inj, heaps_replay hroom, heaps_replay hroom']
  · intro w
    rw [node?_replay hwide, node?_replay hnarrow, Option.map_map, Option.map_map]
    rfl
  · intro heap w
    unfold RetainedTable.own
    rw [node?_replay hwide, node?_replay hnarrow]
    cases (nodesOf calls)[w]? with
    | none => exact AtMostDoubled.refl _
    | some record =>
      simp only [Option.map_some, NodeRecord.resolve]
      by_cases hheap : record.heap = heap
      · rw [if_pos hheap, if_pos hheap]
        exact record.footprint.resolve_doubled
      · rw [if_neg hheap, if_neg hheap]
        exact AtMostDoubled.refl _

/-- With narrow and with wide identifiers, a recording has the same fault, or none. Where it has
none, its two graphs differ in the sizes of their nodes alone and share their tree, and whatever
a node or the sentinel retains of a heap is in the wide graph as much as in the narrow one or more,
and at most twice as much. -/
theorem the_width_of_identifiers_changes_sizes_alone (calls : List Call) :
    (∃ e, (replay .four calls).build = .error e ∧ (replay .eight calls).build = .error e) ∨
      ∃ narrow wide t, (replay .four calls).build = .ok narrow ∧
        (replay .eight calls).build = .ok wide ∧ wide.Widened narrow ∧
        DominatorTree.ofGraph narrow = .ok t ∧ DominatorTree.ofGraph wide = .ok t ∧
        ∀ heap,
          (∀ v, AtMostDoubled ((RetainedTable.ofTree narrow t).size v heap).toNat
            ((RetainedTable.ofTree wide t).size v heap).toNat) ∧
          AtMostDoubled ((RetainedTable.ofTree narrow t).sentinel heap).toNat
            ((RetainedTable.ofTree wide t).sentinel heap).toNat := by
  cases hbuild : (replay .four calls).build with
  | error e =>
    refine Or.inl ⟨e, rfl, ?_⟩
    rw [build_eq_error_iff] at hbuild ⊢
    exact hbuild
  | ok narrow =>
    obtain ⟨wide, hbuild'⟩ := exists_build_iff.mpr (whole_of_ok hbuild)
    have hwidened := widened_built hbuild hbuild'
    obtain ⟨t, hsearch, hsearch', ht, ht'⟩ := DominatorTree.exists_shared_tree hwidened.shape
    refine Or.inr ⟨narrow, wide, t, rfl, hbuild', hwidened, hsearch, hsearch', ?_⟩
    intro heap
    refine ⟨?_, RetainedTable.sentinel_widened hwidened ht' ht heap⟩
    intro v
    exact RetainedTable.size_widened hwidened ht' ht v heap

/-- Four references in an array double, but the object with a reference and a long does not. -/
example : [IdWidth.four, .eight].map (fun width =>
    (replay width [.heap "app", .node ⟨⟨1⟩, ⟨0⟩, .array .object 4, .array .object 4⟩,
      .node ⟨⟨2⟩, ⟨0⟩, .instanceOf none, .fields [.object, .long]⟩, .reference ⟨1⟩ ⟨2⟩,
      .root ⟨1⟩ .javaFrame]).build.toOption.bind fun g =>
        (DominatorTree.ofGraph g).toOption.map fun t =>
          ((RetainedTable.ofTree g t).size 0 ⟨0⟩, (RetainedTable.ofTree g t).size 1 ⟨0⟩)) =
    [some (16 + 12, 12), some (32 + 16, 16)] := by
  cbv

end Recording

end HeapRetention
