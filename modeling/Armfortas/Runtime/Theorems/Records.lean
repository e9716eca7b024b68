import Armfortas.Runtime.Lemmas.Records

/-! Every READ statement sees the record of the WRITE statement in its place, unless a READ statement without items is
come to on a record: that one goes on to skip a line of text. -/
namespace Armfortas.Runtime.Io

def connected : IoUnit := { access := .sequential, form := .unformatted }

theorem connected_idle : connected.Idle := ⟨rfl, rfl, rfl, rfl, rfl, rfl, rfl, rfl⟩

/-- The READ statements see what the WRITE statements wrote, one record each, and then the end of the file. -/
theorem records_agree (ws : List (List WriteItem)) (rs : List (List ReadItem))
    (hw : ∀ w ∈ ws, (writtenBytes w).length < 2 ^ 32 ∧ writeNesting w + 1 < 2 ^ 64)
    (hr : ∀ (k : Nat) r w, rs[k]? = some r → ws[k]? = some w →
      r ≠ [] ∧ itemizedAll r (writtenBytes w) = true ∧ readNesting r + 1 < 2 ^ 64) :
    (writeStatements ws connected).2 = ws.map (fun _ => 0) ∧
    ∃ u, readStatements rs (writeStatements ws connected).1.rewind =
      some (u, rs.mapIdx fun k r => expectedOutcome (ws[k]?.map writtenBytes) r) := by
  have hwrite := writeStatements_eq (fun w hmem => (hw w hmem).2) connected_idle rfl
  rw [hwrite]
  refine ⟨rfl, ?_⟩
  have hidle : (connected.extend (ws.flatMap fun w => frame (writtenBytes w))).rewind.Idle :=
    ⟨rfl, rfl, rfl, rfl, rfl, rfl, rfl, rfl⟩
  have hrest : (connected.extend (ws.flatMap fun w => frame (writtenBytes w))).rewind.rest =
      (ws.map writtenBytes).flatMap frame := by
    simp [IoUnit.rest, IoUnit.rewind, IoUnit.extend, connected, List.flatMap_map]
  have hlen : ∀ bytes ∈ ws.map writtenBytes, bytes.length < 2 ^ 32 := by
    intro bytes hbytes
    obtain ⟨w, hmem, rfl⟩ := List.mem_map.mp hbytes
    exact (hw w hmem).1
  have hitems : ∀ (k : Nat) r bytes, rs[k]? = some r → (ws.map writtenBytes)[k]? = some bytes →
      r ≠ [] ∧ itemizedAll r bytes = true ∧ readNesting r + 1 < 2 ^ 64 := by
    intro k r bytes hk hbytes
    rw [List.getElem?_map] at hbytes
    obtain ⟨w, hw, rfl⟩ := Option.map_eq_some_iff.mp hbytes
    exact hr k r w hk hw
  obtain ⟨u, hrun⟩ := readStatements_eq hitems hlen hidle hrest
  refine ⟨u, ?_⟩
  simp [hrun]

/-- `write (10) a, child` and `write (10) b`. -/
def twoRecords : List (List WriteItem) := [[.transfer [1, 2], .child [.transfer [3]]], [.transfer [7]]]

/-- A child READ takes the last byte of the first record. The second READ asks for too much, and the child READ behind
it is not come to. The third finds the end of the file. -/
def threeReads : List (List ReadItem) :=
  [[.transfer [1], .child [.transfer [2]] false], [.transfer [2], .child [] false], []]

theorem records_agree_twoRecords :
    (∀ w ∈ twoRecords, (writtenBytes w).length < 2 ^ 32 ∧ writeNesting w + 1 < 2 ^ 64) ∧
    (∀ (k : Nat) r w, threeReads[k]? = some r → twoRecords[k]? = some w →
      r ≠ [] ∧ itemizedAll r (writtenBytes w) = true ∧ readNesting r + 1 < 2 ^ 64) ∧
    (writeStatements twoRecords connected).2 = [0, 0] ∧
    ∃ u, readStatements threeReads (writeStatements twoRecords connected).1.rewind =
      some (u, [⟨0, [(1, some [1]), (2, some [2, 3])]⟩, ⟨1, [(2, none)]⟩, ⟨-1, []⟩]) := by
  have hw : ∀ w ∈ twoRecords, (writtenBytes w).length < 2 ^ 32 ∧ writeNesting w + 1 < 2 ^ 64 := by
    simp [twoRecords, writtenBytes, WriteItem.bytes, writeNesting, WriteItem.nesting]
  have hr : ∀ (k : Nat) r w, threeReads[k]? = some r → twoRecords[k]? = some w →
      r ≠ [] ∧ itemizedAll r (writtenBytes w) = true ∧ readNesting r + 1 < 2 ^ 64 := by
    rintro (_ | _ | k) r w hr hw
    · cases hr
      cases hw
      exact ⟨by simp, rfl, by decide⟩
    · cases hr
      cases hw
      exact ⟨by simp, rfl, by decide⟩
    · cases hw
  have h := records_agree twoRecords threeReads hw hr
  exact ⟨hw, hr, h.1, h.2⟩

/-- `write (10) a; write (10) b; rewind (10); read (10); read (10) c`: the first READ has no items. Besides the first
record it takes the second, in which there is no line feed, and `c` finds the end of the file. -/
theorem records_itemless :
    (writeStatements [[.transfer [5]], [.transfer [7]]] connected).2 = [0, 0] ∧
    (readStatements [[], [.transfer [1]]]
      (writeStatements [[.transfer [5]], [.transfer [7]]] connected).1.rewind).map Prod.snd =
        some [⟨0, []⟩, ⟨-1, []⟩] ∧
    expectedOutcome (some (writtenBytes [.transfer [7]])) [.transfer [1]] = ⟨0, [(1, some [7])]⟩ := by
  decide

end Armfortas.Runtime.Io
