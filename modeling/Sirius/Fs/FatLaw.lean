import Sirius.Fs.FatSteps
import Sirius.Support.Runs

/-! Runs of calls on a FAT32 volume. The chains of the entries stay apart as long as no call frees the chain of an entry
that stays, writes to a chain that has become another's, or is led to another entry by an alias. -/
namespace Sirius.Fs.Fat32
open Support Option

variable {count : Nat} {vol : Volume}

inductive FatCall
  | openNode (node : Node) (flags : Nat)
  | write (node : Node) (offset : Nat) (data : List UInt8)
  | create (parent : Nat) (name : List UInt8)
  | mkdir (parent : Nat) (name : List UInt8)
  | unlink (parent : Nat) (name : List UInt8)
  | rmdir (parent : Nat) (name : List UInt8)
  | rename (oldParent : Nat) (oldName : List UInt8) (newParent : Nat) (newName : List UInt8)
  | close (node : Node)

namespace FatCall

def run (vol : Volume) : FatCall → Option Volume
  | .openNode node flags => (fat32Open vol node flags).map fun result => result.2.2
  | .write node offset data => some (fat32Write vol node offset data).2.2
  | .create parent name => (fat32Create vol parent name).map Prod.snd
  | .mkdir parent name => (fat32Mkdir vol parent name).map Prod.snd
  | .unlink parent name => (fat32Unlink vol parent name).map Prod.snd
  | .rmdir parent name => (fat32Rmdir vol parent name).map Prod.snd
  | .rename oldParent oldName newParent newName => (fat32Rename vol oldParent oldName newParent newName).map Prod.snd
  | .close node => (fat32Close vol node).map Prod.snd

def apply (call : FatCall) (state : Option Volume) : Option Volume := state.bind fun vol => call.run vol

/-- The calls that keep a volume consistent. Directories are ones of the volume. An open empties no file that has an entry,
a write goes to a file that has one or to a chain that nobody has, and the alias of a name that is removed leads to the
entry with this name. -/
def Safe (count : Nat) (vol : Volume) : FatCall → Prop
  | .openNode node flags => Truncates node flags → ∃ owner cells, Holds count vol owner true (parentOf vol node) ∧
      Owns count vol node.inode cells ∧ Private count vol cells
  | .write node offset data => Writable count vol node (offset + data.length)
  | .create parent name => Receives count vol parent name 2
  | .mkdir parent name => Receives count vol parent name 2
  | .unlink parent name => (∃ owner, Holds count vol owner true parent) ∧
      ∀ p, findPlace vol parent name = some (some p) → vol.firstCluster p = 0 ∨ OwnSlot vol parent name p
  | .rmdir parent name => (∃ owner, Holds count vol owner true parent) ∧
      ∀ p, findPlace vol parent name = some (some p) → isDirectory vol p = true → name ≠ [46] → name ≠ [46, 46] →
        vol.firstCluster p ≠ 0 ∧ OwnSlot vol parent name p
  | .rename oldParent oldName newParent newName => (∃ owner, Holds count vol owner true oldParent) ∧
      Receives count vol newParent newName 1 ∧ NameOk newName ∧
      ∀ p, findPlace vol oldParent oldName = some (some p) → vol.firstCluster p = 0 ∨ OwnSlot vol oldParent oldName p
  | .close node => node.isDirectory = false → ∃ owner, Holds count vol owner true (parentOf vol node)

theorem exists_of_sound {done : Option (Int × Volume)} (sound : Sound count done) :
    ∃ vol', done.map Prod.snd = some vol' ∧ Consistent count vol' := by
  obtain ⟨result, done, after⟩ := sound
  exact ⟨result.2, congrArg (Option.map _) done, after⟩

/-- One call. -/
theorem Safe.consistent (safe : Safe count vol call) (consistent : Consistent count vol) :
    ∃ vol', run vol call = some vol' ∧ Consistent count vol' := by
  cases call with
  | openNode node flags =>
    obtain ⟨result, done, after⟩ := consistent.opened safe
    exact ⟨result.2.2, congrArg (Option.map _) done, after⟩
  | write node offset data => exact ⟨_, rfl, consistent.write safe⟩
  | create parent name => exact exists_of_sound (consistent.create safe)
  | mkdir parent name => exact exists_of_sound (consistent.mkdir safe)
  | unlink parent name =>
    obtain ⟨⟨owner, holds⟩, own⟩ := safe
    exact exists_of_sound (consistent.unlink holds own)
  | rmdir parent name =>
    obtain ⟨⟨owner, holds⟩, own⟩ := safe
    exact exists_of_sound (consistent.rmdir holds own)
  | rename oldParent oldName newParent newName =>
    obtain ⟨⟨owner, holds⟩, receives, ok, own⟩ := safe
    exact exists_of_sound (consistent.rename holds receives ok own)
  | close node => exact exists_of_sound (consistent.close safe)

end FatCall

def SafeStep (count : Nat) (call : FatCall) (state : Option Volume) : Prop := ∀ vol ∈ state, call.Safe count vol

def fileA : Node := ⟨[97], false, 0, 3, 0, 0x01FF⟩

/-- An entry of the root whose first cluster is free. -/
def Dangling (vol : Volume) (p : Place) : Prop :=
  vol.rootCluster = 2 ∧ eof ≤ getNextCluster vol 2 ∧ p ∈ vol.shorts [2] ∧ ¬IsDot vol p ∧ vol.firstCluster p ≠ 0 ∧
    getNextCluster vol (vol.firstCluster p) = 0

instance : Decidable (Dangling vol p) := inferInstanceAs (Decidable (_ ∧ _))

theorem Dangling.exists_inconsistent (dangling : state.any (fun vol => Dangling vol p) = true) :
    ∃ vol, state = some vol ∧ ¬Consistent 126 vol := by
  obtain ⟨vol, result, dangling⟩ := (any_eq_true _ _).mp dangling
  obtain ⟨root, dir, listed, proper, chained, free⟩ := of_decide_eq_true dangling
  refine ⟨vol, result, fun consistent => ?_⟩
  have holds : Holds 126 vol none true 2 := root ▸ .root
  obtain ⟨cells, owns⟩ := consistent.owned (.entry holds (owns_one dir (by decide)) ⟨listed, proper, chained⟩)
  exact owns.allocated owns.start_mem free

end Sirius.Fs.Fat32
