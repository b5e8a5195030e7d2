import Sirius.Fs.OpenFilesLaw
import Sirius.Support.ByteFile

/-! The bytes of a file in the RamFS, against a byte array. Memory for the buffer is always found. -/
namespace Sirius.Fs.Ramfs
open Support ByteFile

inductive Transfer
  | read (offset size : Nat)
  | write (offset : Nat) (data : List UInt8) (block : Address)

namespace Transfer

def ending : Transfer → Nat
  | .read offset size => offset + size
  | .write offset data _ => offset + data.length

/-- With what the reads have returned so far. -/
def onNode (node : Address) (s : OpenFiles × List (Int × List UInt8)) : Transfer → OpenFiles × List (Int × List UInt8)
  | .read offset size => (s.1, s.2 ++ [s.1.ramfsRead node offset size])
  | .write offset data block => ((s.1.ramfsWrite node offset data (some block)).2, s.2)

/-- All that is read, and how much it is. -/
def answer (bytes : List UInt8) : Int × List UInt8 := (bytes.length, bytes)

/-- A write past the end of the array first adds zeros to it. -/
def onArray (s : ByteFile × List (Int × List UInt8)) : Transfer → ByteFile × List (Int × List UInt8)
  | .read offset size => (s.1, s.2 ++ [answer (s.1.read offset size)])
  | .write offset data _ => ((s.1.extend offset).write offset data, s.2)

end Transfer

/-- The buffer has the bytes of the array, and zeros from its end to the capacity. -/
structure Shows (node : Address) (o : OpenFiles) (array : ByteFile) : Prop where
  file : (o.tree.nodes node).flags ≠ .directory
  absent : (o.data node).buffer = none → (o.data node).bufferCap = 0
  size : (o.data node).size = array.size
  room : (o.data node).size ≤ (o.data node).bufferCap
  bytes : ∀ i < (o.data node).bufferCap, (o.data node).bytes i = array.byte i

section
variable (shows : Shows node o array)
include shows

theorem Shows.read (offset size : Nat) : o.ramfsRead node offset size = Transfer.answer (array.read offset size) := by
  have room := shows.room
  have absent := shows.absent
  rw [Transfer.answer, ByteFile.read_length, ByteFile.read, ← shows.size, OpenFiles.ramfsRead, if_neg shows.file]
  split
  · rw [show min size ((o.data node).size - offset) = 0 by grind]
    rfl
  · dsimp only
    rw [show (if (o.data node).size < offset + size then _ else size) = min size ((o.data node).size - offset) by
      split <;> omega]
    exact congrArg (Prod.mk _) (slice_congr fun i inside => shows.bytes _ (by omega))

theorem Shows.store (offset : Nat) (data : List UInt8) (enough : offset + data.length ≤ (o.data node).bufferCap) :
    Shows node (o.store node offset data) ((array.extend offset).write offset data) := by
  refine ⟨shows.file, ?_, ?_, ?_, fun i inside => ?_⟩ <;> simp only [OpenFiles.store, Function.update_self] at *
  · exact shows.absent
  · rw [size_write_of_le (Nat.le_max_right _ _), extend, shows.size]
    dsimp only
    omega
  · exact Nat.max_le.mpr ⟨shows.room, enough⟩
  · rw [shows.bytes i inside]
    simp only [write, extend, overlay]
    grind

theorem Shows.grow (ending : Nat) (small : ending + 512 < 2 ^ 32) (block : Address) :
    ∃ o', o.grow node ending (some block) = some o' ∧ Shows node o' array ∧ ending ≤ (o'.data node).bufferCap := by
  rw [OpenFiles.grow]
  have room := shows.room
  split
  · refine ⟨_, rfl, ⟨shows.file, ?_, ?_, ?_, fun i _ => ?_⟩, ?_⟩ <;> simp only [Function.update_self]
    · exact nofun
    · exact shows.size
    · omega
    · split
      · exact shows.bytes i (by omega)
      · exact (array.blank i (by rw [← shows.size]; omega)).symm
    · omega
  · exact ⟨o, rfl, shows, by omega⟩

theorem Shows.write (offset : Nat) (data : List UInt8) (small : offset + data.length + 512 < 2 ^ 31) (block : Address) :
    Shows node (o.ramfsWrite node offset data (some block)).2 ((array.extend offset).write offset data) := by
  obtain ⟨o', grown, shown, enough⟩ := shows.grow (offset + data.length) (by omega) block
  rw [OpenFiles.ramfsWrite, if_neg shows.file, grown]
  exact shown.store offset data enough

end

theorem ramfs_file_is_array (o : OpenFiles) (node : Address) (file : (o.tree.nodes node).flags ≠ .directory)
    (new : o.data node = .empty) (calls : List Transfer) (small : ∀ call ∈ calls, call.ending + 512 < 2 ^ 31) :
    (calls.foldl (Transfer.onNode node) (o, [])).2 = (calls.foldl Transfer.onArray (.empty, [])).2 ∧
      ((calls.foldl (Transfer.onNode node) (o, [])).1.data node).size ≤
        ((calls.foldl (Transfer.onNode node) (o, [])).1.data node).bufferCap := by
  have run : ∀ s t, Shows node s.1 t.1 → s.2 = t.2 →
      Shows node (calls.foldl (Transfer.onNode node) s).1 (calls.foldl Transfer.onArray t).1 ∧
        (calls.foldl (Transfer.onNode node) s).2 = (calls.foldl Transfer.onArray t).2 := by
    induction calls with
    | nil => exact fun s t shown same => ⟨shown, same⟩
    | cons call rest ih =>
      rintro ⟨o, out⟩ ⟨array, out'⟩ shown same
      have later := ih fun other mem => small other (.tail _ mem)
      cases call with
      | read offset size =>
        refine later (o, _) (array, _) shown ?_
        rw [shown.read offset size, show out = out' from same]
      | write offset data block => exact later _ _ (shown.write offset data (small _ (.head _)) block) same
  have start : Shows node o .empty := by
    refine ⟨file, ?_, ?_, ?_, ?_⟩ <;> simp [new, FileData.empty, empty]
  obtain ⟨shown, same⟩ := run (o, []) (.empty, []) start rfl
  exact ⟨same, shown.room⟩

def newFile : OpenFiles := (OpenCall.open 1 [] fileA oCreat ⟨some 200, true, true⟩ (some 8)).apply nothingOpen

/-- A write past the end, and a read across the gap. -/
theorem ramfs_file_is_array_gap :
    ([.write 2 [7] 300, .read 1 5].foldl (Transfer.onNode 200) (newFile, [])).2 = [(2, [0, 7])] :=
  (ramfs_file_is_array newFile 200 (by decide) rfl [.write 2 [7] 300, .read 1 5] (by decide)).1.trans (by decide)

end Sirius.Fs.Ramfs
