-- Rows in one array. Each item of a list goes into the row of a numbered place:
-- the items of each place are counted, the counts are added up to where the rows
-- begin, and then each item is stored behind those that its row has already. A
-- row keeps the order of the list and every repeat. An edge is an item in the
-- row of one of its ends, with the other end as its entry.

namespace HeapRetention

/-- Rows one behind another. The row of a place begins at the offset of the place and ends where
the next row begins. -/
structure CompressedRows where
  offsets : Array Nat
  entries : Array Nat
deriving Repr

/-- Rows that are being filled: where the next entry of each row goes, and the entries so far. -/
structure FillingRows where
  cursors : Array Nat
  entries : Array Nat

/-- Stores the entry of an item in the row of its place. -/
def FillingRows.store : FillingRows → Nat × Nat → FillingRows
  | ⟨cursors, entries⟩, (entry, place) =>
    let cursor := cursors.getD place 0
    ⟨cursors.modify place (· + 1), entries.set! cursor entry⟩

namespace CompressedRows

/-! ## Offsets -/

/-- The items of each place, counted one place further on. -/
def counts (places : Nat) (items : List (Nat × Nat)) : Array Nat :=
  items.foldl (fun counts item => counts.modify (item.2 + 1) (· + 1))
    (Array.replicate (places + 1) 0)

/-- Adds what stands at a place to the next one. -/
def addOn (sums : Array Nat) (place : Nat) : Array Nat :=
  let sum := sums.getD place 0
  sums.modify (place + 1) (· + sum)

/-- The counts after so many of them were added up. -/
def sums (places : Nat) (items : List (Nat × Nat)) (added : Nat) : Array Nat :=
  (List.range added).foldl addOn (counts places items)

/-! ## Entries -/

/-- The rows that begin at the offsets, after the items of `stored`. The room for all entries is
what the last offset tells. -/
def filling (places : Nat) (offsets : Array Nat) (stored : List (Nat × Nat)) : FillingRows :=
  stored.foldl FillingRows.store ⟨offsets, Array.replicate (offsets.getD places 0) 0⟩

/-- The entries of the items of each place below `places`, in the order of the items. -/
def ofItems (places : Nat) (items : List (Nat × Nat)) : CompressedRows :=
  let offsets := sums places items places
  ⟨offsets, (filling places offsets items).entries⟩

/-- The same rows, where the room for all entries is told beforehand. -/
def withRoom (room places : Nat) (items : List (Nat × Nat)) : CompressedRows :=
  let offsets := sums places items places
  ⟨offsets, (items.foldl FillingRows.store ⟨offsets, Array.replicate room 0⟩).entries⟩

/-! ## Rows -/

/-- The row of a place. -/
def row (rows : CompressedRows) (place : Nat) : List Nat :=
  (rows.entries.extract (rows.offsets.getD place 0) (rows.offsets.getD (place + 1) 0)).toList

/-- The row of a place, where it can be cut out of the entries. -/
def row? (rows : CompressedRows) (place : Nat) : Option (List Nat) :=
  match rows.offsets[place]?, rows.offsets[place + 1]? with
  | some first, some next =>
    if first ≤ next ∧ next ≤ rows.entries.size then some (rows.entries.extract first next).toList
    else none
  | _, _ => none

/-- The offsets rise from place to place up to the end of the entries. -/
structure IsTable (rows : CompressedRows) (places : Nat) : Prop where
  size_eq : rows.offsets.size = places + 1
  rises : ∀ place < places, rows.offsets.getD place 0 ≤ rows.offsets.getD (place + 1) 0
  last_eq : rows.offsets.getD places 0 = rows.entries.size

end CompressedRows

end HeapRetention
