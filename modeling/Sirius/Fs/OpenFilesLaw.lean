import Sirius.Fs.DescriptorLaw
import Sirius.Fs.OpenFiles

/-! Files that are open stay open: a node and its buffer last as long as a file structure refers to them,
exactly if no file is removed while it is open. -/
namespace Sirius.Fs.Ramfs
open Support Sched Function List OpenCall
open Finset hiding mem_cons mem_singleton_self

/-- The node the file structure was opened for has not been freed, nor has its buffer. -/
def Kept (o : OpenFiles) (file : FileAddr) : Prop :=
  o.nodeOf file ∈ o.tree.live ∧ o.birth (o.nodeOf file) = o.opened file ∧
    ∀ block ∈ (o.data (o.nodeOf file)).buffer, block ∈ o.blocks

/-- What a descriptor leads to is a file structure in use, and these keep their nodes. -/
def Safe (o : OpenFiles) : Prop :=
  (∀ slot ∈ o.files.slots, ∀ file, o.files.table slot = some file → file ∈ o.files.live) ∧ ∀ file ∈ o.files.live, Kept o file

/-- What is removed is not open. -/
def OpenCall.Spares (call : OpenCall) (o : OpenFiles) : Prop :=
  match call with
  | .unlink dirs name => ∀ parent ∈ resolve o.tree dirs o.tree.root, ∀ gone ∈ o.doomed parent name,
      ∀ file ∈ o.files.live, o.nodeOf file ≠ gone
  | _ => True

/-- Every entry of the tree is live and in one place. -/
structure Held (s : State) : Prop where
  root : s.root ∈ s.live
  top : ∀ d ∈ s.live, s.root ∉ s.entriesOf d
  inside : ∀ d ∈ s.live, ∀ e ∈ s.entriesOf d, e ∈ s.live
  once : ∀ d ∈ s.live, (s.entriesOf d).Nodup
  alone : ∀ d ∈ s.live, ∀ d' ∈ s.live, ∀ e, e ∈ s.entriesOf d → e ∈ s.entriesOf d' → d = d'

/-- Every buffer belongs to one node. -/
structure Owned (live : Finset Address) (data : Address → FileData) (blocks : Finset Address) : Prop where
  inside : ∀ a ∈ live, ∀ b ∈ (data a).buffer, b ∈ blocks
  alone : ∀ a ∈ live, ∀ a' ∈ live, ∀ b, b ∈ (data a).buffer → b ∈ (data a').buffer → a = a'

structure OpenInv (o : OpenFiles) : Prop where
  counted : CountedIn o.files.slots o.files
  few : o.files.slots.card < 2 ^ 32
  held : Held o.tree
  owned : Owned o.tree.live o.data o.blocks
  nodes : ∀ file ∈ o.files.live, o.nodeOf file ∈ o.tree.live ∧ o.birth (o.nodeOf file) = o.opened file

theorem OpenInv.safe (inv : OpenInv o) : Safe o := by
  refine ⟨(exact_iff_counted.mpr inv.counted).points, fun file live => ?_⟩
  obtain ⟨node, same⟩ := inv.nodes file live
  exact ⟨node, same, inv.owned.inside _ node⟩

/-! ### Trees -/

namespace Held
variable {s : State}

theorem resolve (held : Held s) (path : List Name) (start : a ∈ s.live) (found : resolve s path a = some b) : b ∈ s.live := by
  induction path generalizing a with
  | nil =>
    cases found
    exact start
  | cons token rest ih =>
    rw [Ramfs.resolve] at found
    split at found
    · exact ih start found
    cases next : finddir s a token with
    | none =>
      rw [next] at found
      cases found
    | some next' =>
      rw [next] at found
      exact ih (held.inside a start next' (finddir_mem next).1) found

/-- Only what the entries are matters. -/
theorem of_entries (held : Held s) (entries : s'.entriesOf = s.entriesOf) (live : s'.live = s.live)
    (root : s'.root = s.root) : Held s' := by
  obtain ⟨rooted, top, inside, once, alone⟩ := held
  simp only [← entries, ← live, ← root] at rooted top inside once alone
  exact ⟨rooted, top, inside, once, alone⟩

theorem link (held : Held s) (parent : p ∈ s.live) (fresh : a ∉ s.live) (leaf : node.entries = []) :
    Held (link s p a node) := by
  have other : p ≠ a := fun same => fresh (same ▸ parent)
  have live : ∀ x, x ∈ (Ramfs.link s p a node).live ↔ x = a ∨ x ∈ s.live := fun x => mem_insert
  have child := fun x y => child_link parent fresh leaf (s := s) x y
  have entry : ∀ x y, x ∈ (Ramfs.link s p a node).live → y ∈ (Ramfs.link s p a node).entriesOf x →
      (x ∈ s.live ∧ y ∈ s.entriesOf x) ∨ x = p ∧ y = a := fun x y there listed => (child x y).mp ⟨there, listed⟩
  refine ⟨(live _).mpr (.inr held.root), fun d there listed => ?_, fun d there e listed => (live e).mpr ?_, fun d there => ?_,
    fun d there d' there' e first second => ?_⟩
  · rcases entry d _ there listed with ⟨old, before⟩ | ⟨-, same⟩
    · exact held.top d old before
    · exact fresh (same ▸ held.root)
  · rcases entry d e there listed with ⟨old, before⟩ | ⟨-, same⟩
    · exact .inr (held.inside d old e before)
    · exact .inl same
  · rw [entriesOf_link other]
    split
    next => exact nodup_cons.mpr ⟨fun listed => fresh (held.inside p parent a listed), held.once p parent⟩
    next => 
      split
      next => exact leaf ▸ nodup_nil
      next isNew => exact held.once d (((live d).mp there).resolve_left isNew)
  · rcases entry d e there first with ⟨old, before⟩ | ⟨rfl, rfl⟩
    · rcases entry d' e there' second with ⟨old', before'⟩ | ⟨rfl, rfl⟩
      · exact held.alone d old d' old' e before before'
      · exact absurd (held.inside d old e before) fresh
    · rcases entry d' e there' second with ⟨old', before'⟩ | ⟨rfl, -⟩
      · exact absurd (held.inside d' old' e before') fresh
      · rfl

end Held

/-- An `unlink` does nothing, or takes the node it frees out of the directory. -/
theorem unlink_cases (o : OpenFiles) (held : Held o.tree) (parent : p ∈ o.tree.live) (name : Name) :
    (o.doomed p name = none ∧ (unlink o.tree p name).2 = o.tree) ∨
      ∃ gone entries, o.doomed p name = some gone ∧ gone ∈ o.tree.entriesOf p ∧ List.Sublist entries (o.tree.entriesOf p) ∧
        gone ∉ entries ∧ (unlink o.tree p name).2 = removed o.tree p gone entries := by
  rw [OpenFiles.doomed, unlink, removeObject]
  cases found : (o.tree.entriesOf p).find? (fun entry => o.tree.nameOf entry = name) with
  | none => exact .inl ⟨rfl, rfl⟩
  | some gone =>
    dsimp only
    by_cases file : (o.tree.nodes gone).flags = .file
    · rw [if_pos file, if_neg (not_not.mpr file), if_neg (by simp)]
      refine .inr ⟨gone, _, rfl, mem_of_find?_eq_some found, eraseP_sublist, notMem_eraseP (held.once p parent) found, rfl⟩
    · rw [if_neg file, if_pos file]
      exact .inl ⟨rfl, rfl⟩

theorem Held.removed (held : Held s) (parent : p ∈ s.live) (listed : gone ∈ s.entriesOf p)
    (part : List.Sublist entries (s.entriesOf p)) (out : gone ∉ entries) : Held (removed s p gone entries) := by
  have live : ∀ x, x ∈ (Ramfs.removed s p gone entries).live ↔ x ≠ gone ∧ x ∈ s.live := fun x => mem_erase
  have shape : ∀ d, (Ramfs.removed s p gone entries).entriesOf d = if d = p then entries else s.entriesOf d := by
    intro d
    rw [entriesOf_removed, update_apply]
  have sub : ∀ d e, e ∈ (Ramfs.removed s p gone entries).entriesOf d → e ∈ s.entriesOf d := by
    intro d e member
    rw [shape] at member
    split at member
    next here => exact here ▸ part.subset member
    next => exact member
  refine ⟨(live _).mpr ⟨fun same => held.top p parent (same ▸ listed), held.root⟩, fun d there member => ?_,
    fun d there e member => (live e).mpr ⟨?_, ?_⟩, fun d there => ?_, fun d there d' there' e first second => ?_⟩
  · exact held.top d ((live d).mp there).2 (sub d _ member)
  · rintro rfl
    have here := held.alone d ((live d).mp there).2 p parent e (sub d e member) listed
    rw [shape, if_pos here] at member
    exact out member
  · exact held.inside d ((live d).mp there).2 e (sub d e member)
  · rw [shape]
    split
    next => exact part.nodup (held.once p parent)
    next => exact held.once d ((live d).mp there).2
  · exact held.alone d ((live d).mp there).2 d' ((live d').mp there').2 e (sub d e first) (sub d' e second)

/-! ### File structures -/

/-- No file structure is new, and none refers to another node. -/
structure Fewer (before after : Descriptors) : Prop where
  alive : after.alive = before.alive
  live : ∀ f ∈ after.live, f ∈ before.live
  node : ∀ f, (after.files f).node = (before.files f).node

namespace Fewer

variable (s : Descriptors) (slot : Slot)

theorem refl : Fewer s s := ⟨rfl, fun _ member => member, fun _ => rfl⟩

theorem trans (first : Fewer a b) (second : Fewer b c) : Fewer a c :=
  ⟨second.alive.trans first.alive, fun f member => first.live f (second.live f member),
    fun f => (second.node f).trans (first.node f)⟩

theorem setSlot (file : Option FileAddr) : Fewer s (s.setSlot slot file) :=
  ⟨rfl, fun _ member => member, fun _ => rfl⟩

/-- Another structure in the place of a file's, with the same field. -/
theorem field_update {β : Type*} (field : VfsFile → β) {s : Descriptors} {new : VfsFile}
    (same : field new = field (s.files file)) (f : FileAddr) : field (update s.files file new f) = field (s.files f) := by
  rw [update_apply]
  split
  next here => exact here ▸ same
  next => rfl

theorem setCount (file : FileAddr) (count : BitVec 32) : Fewer s (s.setCount file count) :=
  ⟨rfl, fun _ member => member, fun f => field_update VfsFile.node (by rfl) f⟩

theorem dropReference (file : FileAddr) : Fewer s (dropReference s file) := by
  refine ⟨dropReference_alive s file, fun f member => ?_, fun f => ?_⟩
  · rw [dropReference_live] at member
    split at member
    · exact mem_of_mem_erase member
    · exact member
  · rw [dropReference_files]
    exact field_update VfsFile.node (by rfl) f

theorem sysClose (s : Descriptors) (p : Pcb) (fd : Int) : Fewer s (sysClose s p fd).2 := by
  rw [Fs.sysClose]
  split
  · exact refl s
  · split
    · exact refl s
    · exact (dropReference s _).trans (setSlot _ _ _)

theorem kDup2 (s : Descriptors) (p : Pcb) (oldfd newfd : Int) : Fewer s (kDup2 s p oldfd newfd).2 := by
  rw [Fs.kDup2]
  split
  · split
    · split <;> exact refl s
    split
    · exact refl s
    · refine Fewer.trans ?_ ((setSlot _ _ _).trans (setCount _ _ _))
      split
      · exact refl s
      · exact (dropReference s _).trans (setSlot _ _ _)
  · exact refl s

end Fewer

/-- A call of `open` makes no structure, or one for the node it is given. -/
theorem sysOpen_cases (s : Descriptors) (p : Pcb) (flags : BitVec 32) (node : Option NodeAddr) (block : Option FileAddr) :
    Fewer s (Fs.sysOpen s p flags node block).2 ∨
      ∃ target file, node = some target ∧ block = some file ∧ (Fs.sysOpen s p flags node block).2.alive = s.alive ∧
        (Fs.sysOpen s p flags node block).2.live = insert file s.live ∧
        ∀ f, ((Fs.sysOpen s p flags node block).2.files f).node = if f = file then target else (s.files f).node := by
  cases node with
  | none => exact .inl (.refl s)
  | some target =>
    rw [Fs.sysOpen]
    split
    · exact .inl ⟨rfl, fun _ member => member, fun _ => rfl⟩
    cases block with
    | none => exact .inl ⟨rfl, fun _ member => member, fun _ => rfl⟩
    | some file =>
      refine .inr ⟨target, file, rfl, rfl, rfl, rfl, fun f => ?_⟩
      simp only [Descriptors.setCount, Descriptors.setSlot, update_apply, if_true]
      split <;> rfl

namespace OpenInv
variable {o : OpenFiles}

section
variable (inv : OpenInv o)
include inv

/-- File structures that were there, or that are new for a node. -/
theorem withOpened (counted : CountedIn files.slots files) (alive : files.alive = o.files.alive)
    (nodes : ∀ f ∈ files.live, (f ∈ o.files.live ∧ (files.files f).node = o.nodeOf f ∧ opened f = o.opened f) ∨
      ((files.files f).node ∈ o.tree.live ∧ o.birth (files.files f).node = opened f)) :
        OpenInv { o with files := files, opened := opened } := by
  refine ⟨counted, ?_, inv.held, inv.owned, fun file live => ?_⟩
  · have few := inv.few
    rwa [Descriptors.slots, ← alive] at few
  rcases nodes file live with ⟨before, same, history⟩ | new
  · show (files.files file).node ∈ o.tree.live ∧ o.birth (files.files file).node = opened file
    rw [same, history]
    exact inv.nodes file before
  · exact new

theorem withFiles (counted : CountedIn files.slots files) (fewer : Fewer o.files files) :
    OpenInv { o with files := files } :=
  inv.withOpened counted fewer.alive fun f live => .inl ⟨fewer.live f live, fewer.node f, rfl⟩

theorem advance (file : FileAddr) (count : Nat) : OpenInv (o.advance file count) := by
  refine inv.withFiles ?_ ⟨rfl, fun _ member => member, fun f => Fewer.field_update VfsFile.node (by rfl) f⟩
  have counts : ∀ f, ((o.advance file count).files.files f).refCount = (o.files.files f).refCount :=
    fun f => Fewer.field_update VfsFile.refCount (by rfl) f
  refine ⟨fun f live => ?_, inv.counted.held⟩
  exact (congrArg BitVec.toNat (counts f)).trans (inv.counted.counts f live)

theorem sysRead (p : Pcb) (fd : Int) (size : Nat) : OpenInv (o.sysRead p fd size) := by
  rw [OpenFiles.sysRead]
  split
  · exact inv
  · dsimp only
    split
    · exact inv.advance _ _
    · exact inv

/-- Data of the same buffers. -/
theorem withData (same : ∀ a, (data a).buffer = (o.data a).buffer) : OpenInv { o with data := data } := by
  refine ⟨inv.counted, inv.few, inv.held, ⟨fun a live b buffer => ?_, fun a live a' live' b first second => ?_⟩, inv.nodes⟩
  · rw [same] at buffer
    exact inv.owned.inside a live b buffer
  · rw [same] at first second
    exact inv.owned.alone a live a' live' b first second

theorem store (node : Address) (offset : Nat) (bytes : List UInt8) : OpenInv (o.store node offset bytes) := by
  refine inv.withData fun a => ?_
  rw [update_apply]
  split
  next here => rw [here]
  next => rfl

end

end OpenInv

/-- A buffer in the place of another, which no other node has. -/
theorem Owned.replace (owned : Owned live data blocks) (node : a ∈ live) (fresh : block ∉ blocks)
    (new : FileData) (buffer : new.buffer = some block) (rest : Finset Address)
    (kept : ∀ b ∈ blocks, b ∉ (data a).buffer → b ∈ rest) : Owned live (update data a new) (insert block rest) := by
  have other : ∀ x ∈ live, ∀ b, b ∈ (update data a new x).buffer → x = a ∧ b = block ∨ x ≠ a ∧ b ∈ (data x).buffer := by
    intro x _ b member
    by_cases here : x = a
    · subst here
      rw [update_self, buffer] at member
      exact .inl ⟨rfl, (Option.mem_some.mp member).symm⟩
    · rw [update_of_ne here] at member
      exact .inr ⟨here, member⟩
  refine ⟨fun x there b member => ?_, fun x there y there' b first second => ?_⟩
  · rcases other x there b member with ⟨-, rfl⟩ | ⟨different, old⟩
    · exact mem_insert_self b rest
    · refine mem_insert_of_mem (kept b (owned.inside x there b old) fun shared => different ?_)
      exact owned.alone x there a node b old shared
  rcases other x there b first with ⟨rfl, rfl⟩ | ⟨-, old⟩
  · rcases other y there' b second with ⟨rfl, -⟩ | ⟨-, old'⟩
    · rfl
    · exact absurd (owned.inside y there' b old') fresh
  · rcases other y there' b second with ⟨-, rfl⟩ | ⟨-, old'⟩
    · exact absurd (owned.inside x there b old) fresh
    · exact owned.alone x there y there' b old old'

namespace OpenInv
variable {o : OpenFiles}

theorem grow (inv : OpenInv o) (node : a ∈ o.tree.live) (fresh : ∀ block ∈ grant, block ∉ o.blocks)
    (grown : o.grow a ending grant = some o') : OpenInv o' := by
  unfold OpenFiles.grow at grown
  split at grown
  · cases grant with
    | none => cases grown
    | some block =>
      cases grown
      refine ⟨inv.counted, inv.few, inv.held, ?_, inv.nodes⟩
      refine inv.owned.replace node (fresh block rfl) _ rfl _ fun b member different => ?_
      split
      next => exact member
      next old buffer =>
        refine mem_erase.mpr ⟨fun same => different ?_, member⟩
        exact same ▸ buffer
  · cases grown
    exact inv

theorem vfsWrite (inv : OpenInv o) (node : a ∈ o.tree.live) (fresh : ∀ block ∈ grant, block ∉ o.blocks) (offset : Nat)
    (bytes : List UInt8) : OpenInv (o.vfsWrite a offset bytes grant).2 := by
  rw [OpenFiles.vfsWrite]
  split
  · exact inv
  split
  · exact inv
  rw [OpenFiles.ramfsWrite]
  split
  · exact inv
  · split
    next => exact inv
    next grown => exact (inv.grow node fresh grown).store a offset bytes

theorem fileOf_live (inv : OpenInv o) (calls : p ∈ o.files.alive) (found : o.fileOf p fd = some file) : file ∈ o.files.live := by
  obtain ⟨i, -, full⟩ := Option.bind_eq_some_iff.mp found
  exact (exact_iff_counted.mpr inv.counted).points (p, i) (mem_slots.mpr calls) file full

theorem sysWrite (inv : OpenInv o) (calls : p ∈ o.files.alive) (fresh : ∀ block ∈ grant, block ∉ o.blocks) (fd : Int)
    (bytes : List UInt8) : OpenInv (o.sysWrite p fd bytes grant) := by
  rw [OpenFiles.sysWrite]
  split
  · exact inv
  next file found =>
    have live := (inv.nodes file (inv.fileOf_live calls found)).1
    have written := inv.vfsWrite live fresh (o.files.files file).offset.toNat bytes
    dsimp only
    split
    · exact written.advance file _
    · exact written

end OpenInv

theorem create_cases (s : State) (parent : Address) (name : Name) (permissions : BitVec 16) (grants : Ramfs.Grants) :
    (∃ code, code ≠ 0 ∧ create s parent name permissions grants = (code, s)) ∨
      ∃ address, grants.node = some address ∧ ∃ node : Node, node.entries = [] ∧
        create s parent name permissions grants = (0, link s parent address node) := by
  rw [create, createObject]
  split
  · exact .inl ⟨-1, by decide, rfl⟩
  split
  · exact .inl ⟨-2, by decide, rfl⟩
  cases grants.node with
  | none => exact .inl ⟨-3, by decide, rfl⟩
  | some address =>
    dsimp only
    split
    · exact .inl ⟨-3, by decide, rfl⟩
    · split
      · exact .inl ⟨-3, by decide, rfl⟩
      · exact .inr ⟨address, rfl, _, rfl, rfl⟩

/-- A file is not made, or is new without data. -/
theorem createFile_cases (o : OpenFiles) (parent : Address) (name : Name) (grants : Ramfs.Grants) :
    ((o.createFile parent name grants).1 ≠ 0 ∧ (o.createFile parent name grants).2 = o) ∨
      ∃ address ∈ grants.node, ∃ node : Node, node.entries = [] ∧ (o.createFile parent name grants).2 =
        { o with
          tree := link o.tree parent address node
          data := update o.data address .empty
          made := o.made + 1
          birth := update o.birth address o.made } := by
  rw [OpenFiles.createFile]
  rcases create_cases o.tree parent name 0o644 grants with ⟨code, failed, same⟩ | ⟨address, granted, node, leaf, made⟩
  · rw [same]
    refine .inl ?_
    cases grants.node with
    | none => exact ⟨failed, rfl⟩
    | some address =>
      dsimp only
      rw [if_neg failed]
      exact ⟨failed, rfl⟩
  · rw [made, granted]
    exact .inr ⟨address, rfl, node, leaf, rfl⟩

namespace OpenInv
variable {o : OpenFiles}

section
variable (inv : OpenInv o)
include inv

theorem createFile (parent : d ∈ o.tree.live) (name : Name) (fresh : o.tree.Fresh grants) :
    OpenInv (o.createFile d name grants).2 ∧ d ∈ (o.createFile d name grants).2.tree.live ∧
      (o.createFile d name grants).2.files = o.files := by
  rcases createFile_cases o d name grants with ⟨-, same⟩ | ⟨address, granted, node, leaf, made⟩
  · rw [same]
    exact ⟨inv, parent, rfl⟩
  have new := fresh address granted
  rw [made]
  refine ⟨⟨inv.counted, inv.few, inv.held.link parent new leaf, ?_, fun file live => ?_⟩, mem_insert_of_mem parent, rfl⟩
  · have old : ∀ x ∈ insert address o.tree.live, ∀ b, b ∈ (update o.data address .empty x).buffer →
        x ∈ o.tree.live ∧ b ∈ (o.data x).buffer := by
      intro x there b member
      by_cases here : x = address
      · subst here
        rw [update_self] at member
        cases member
      · rw [update_of_ne here] at member
        exact ⟨mem_of_mem_insert_of_ne there here, member⟩
    refine ⟨fun x there b member => ?_, fun x there y there' b first second => ?_⟩
    · exact inv.owned.inside x (old x there b member).1 b (old x there b member).2
    · exact inv.owned.alone x (old x there b first).1 y (old y there' b second).1 b (old x there b first).2
        (old y there' b second).2
  · obtain ⟨before, birth⟩ := inv.nodes file live
    refine ⟨mem_insert_of_mem before, ?_⟩
    have old : o.nodeOf file ≠ address := fun same => new (same ▸ before)
    exact (update_of_ne old _ _).trans birth

theorem setParentInode (target : Address) (inode : BitVec 32) : OpenInv { o with tree := o.tree.setParentInode target inode } :=
  ⟨inv.counted, inv.few,
    inv.held.of_entries (funext fun a => field_setParentInode Node.entries inode (fun _ => rfl) a) rfl rfl, inv.owned, inv.nodes⟩

theorem vfsOpen (dirs : List Name) (name : Name) (flags : BitVec 32) (fresh : o.tree.Fresh grants) :
    OpenInv (o.vfsOpen dirs name flags grants).2 ∧ (o.vfsOpen dirs name flags grants).2.files = o.files ∧
      ∀ node ∈ (o.vfsOpen dirs name flags grants).1, node ∈ (o.vfsOpen dirs name flags grants).2.tree.live := by
  rw [OpenFiles.vfsOpen]
  cases whole : resolve o.tree (dirs ++ [name]) o.tree.root with
  | some target =>
    refine ⟨inv.setParentInode target _, rfl, fun node same => ?_⟩
    cases same
    exact inv.held.resolve _ inv.held.root whole
  | none =>
    cases there : resolve o.tree dirs o.tree.root with
    | none => exact ⟨inv, rfl, by simp⟩
    | some parent =>
      dsimp only
      by_cases creates : flags &&& oCreat ≠ 0
      · obtain ⟨created, member, files⟩ := inv.createFile (inv.held.resolve dirs inv.held.root there) name fresh
        rw [if_pos creates]
        dsimp only
        -- what is made is only named once it is found again
        cases made : if (o.createFile parent name grants).1 = 0 then
            finddir (o.createFile parent name grants).2.tree parent name else none with
        | none => exact ⟨created, files, by simp⟩
        | some target =>
          refine ⟨created.setParentInode target _, files, fun node same => ?_⟩
          cases same
          have listed := (Option.ite_none_right_eq_some.mp made).2
          exact created.held.inside parent member target (finddir_mem listed).1
      · rw [if_neg creates]
        exact ⟨inv, rfl, by simp⟩

theorem sysOpen (calls : p ∈ o.files.alive) (dirs : List Name) (name : Name) (flags : BitVec 32) (fresh : o.tree.Fresh grants)
    (new : ∀ file, block = some file → file ∉ o.files.live) : OpenInv (o.sysOpen p dirs name flags grants block) := by
  obtain ⟨opened, files, live⟩ := inv.vfsOpen dirs name flags fresh
  rw [OpenFiles.sysOpen]
  generalize o.vfsOpen dirs name flags grants = result at opened files live
  obtain ⟨node, after⟩ := result
  rw [← files] at calls new
  have counted := opened.counted.sysOpen calls flags node new
  rcases sysOpen_cases after.files p flags node block with fewer | ⟨target, file, rfl, rfl, alive, added, nodes⟩
  · refine opened.withOpened counted fewer.alive fun f member => .inl ⟨fewer.live f member, fewer.node f, ?_⟩
    split
    next file =>
      have used : f ≠ file := fun same => new file rfl (same ▸ fewer.live f member)
      exact update_of_ne used _ _
    next => rfl
  · refine opened.withOpened counted alive fun f member => ?_
    rw [nodes]
    by_cases here : f = file
    · rw [if_pos here, here]
      exact .inr ⟨live target rfl, (update_self file (after.birth target) after.opened).symm⟩
    · rw [if_neg here]
      have old := mem_of_mem_insert_of_ne (added ▸ member) here
      exact .inl ⟨old, rfl, update_of_ne here _ _⟩

/-- To remove a file that is not open keeps all the others. -/
theorem sysUnlink (dirs : List Name) (name : Name) (spares : (OpenCall.unlink dirs name).Spares o) :
    OpenInv (o.sysUnlink dirs name) := by
  rw [OpenFiles.sysUnlink]
  split
  · exact inv
  next parent there =>
    have member := inv.held.resolve dirs inv.held.root there
    rcases unlink_cases o inv.held member name with ⟨spared, same⟩ | ⟨gone, entries, doomed, listed, part, out, shape⟩
    · rw [spared, same]
      exact inv
    rw [doomed, shape]
    have live : ∀ x, x ∈ (removed o.tree parent gone entries).live ↔ x ≠ gone ∧ x ∈ o.tree.live := fun x => mem_erase
    refine ⟨inv.counted, inv.few, inv.held.removed member listed part out, ⟨fun x there b buffer => ?_, ?_⟩, fun file used => ?_⟩
    · obtain ⟨other, before⟩ := (live x).mp there
      have block := inv.owned.inside x before b buffer
      dsimp only
      split
      next => exact block
      next freed here =>
        refine mem_erase.mpr ⟨fun same => other ?_, block⟩
        exact inv.owned.alone x before gone (inv.held.inside parent member gone listed) b buffer (same ▸ here)
    · intro x there y there'
      exact inv.owned.alone x ((live x).mp there).2 y ((live y).mp there').2
    · obtain ⟨before, birth⟩ := inv.nodes file used
      exact ⟨(live _).mpr ⟨spares parent there gone doomed file used, before⟩, birth⟩

theorem apply (call : OpenCall) (possible : call.Possible o) (spares : call.Spares o) : OpenInv (call.apply o) := by
  obtain ⟨calls, rest⟩ := possible
  cases call with
  | «open» p dirs name flags grants block => exact inv.sysOpen (calls p rfl) dirs name flags rest.2.1 rest.2.2
  | close p fd => exact inv.withFiles (inv.counted.sysClose (calls p rfl) fd) (.sysClose _ p fd)
  | dup2 p oldfd newfd => exact inv.withFiles (inv.counted.kDup2 (calls p rfl) inv.few oldfd newfd) (.kDup2 _ p oldfd newfd)
  | read p fd size => exact inv.sysRead p fd size
  | write p fd bytes grant => exact inv.sysWrite (calls p rfl) rest fd bytes
  | unlink dirs name => exact inv.sysUnlink dirs name spares

/-- A call that leaves everything safe has spared what is open. -/
theorem spares_of_safe (call : OpenCall) (safe : Safe (call.apply o)) : call.Spares o := by
  cases call with
  | unlink dirs name =>
    intro parent there gone doomed file used same
    have kept := (safe.2 file (by
      show file ∈ (o.sysUnlink dirs name).files.live
      rw [OpenFiles.sysUnlink, there]
      exact used)).1
    have member := inv.held.resolve dirs inv.held.root there
    rcases unlink_cases o inv.held member name with ⟨spared, -⟩ | ⟨other, entries, freed, -, -, -, shape⟩
    · exact nomatch doomed.symm.trans spared
    have same' : gone = other := Option.some.inj (doomed.symm.trans freed)
    have live : o.nodeOf file ∈ (o.sysUnlink dirs name).tree.live := by
      have nodes : (o.sysUnlink dirs name).nodeOf file = o.nodeOf file := by
        rw [OpenFiles.sysUnlink, there]
        rfl
      exact nodes ▸ kept
    rw [OpenFiles.sysUnlink, there] at live
    dsimp only at live
    rw [shape, same, same'] at live
    exact (mem_erase.mp live).1 rfl
  | _ => trivial

end

end OpenInv

/-- In a run of calls, exactly if none removes a file that is open, every descriptor leads to the node
it was opened for after each of them, and this node and its buffer have not been freed. -/
theorem open_files_safe_iff_spared (start : OpenFiles) (begins : OpenInv start) (calls : List OpenCall) :
    AllMeet apply (fun call o => call.Possible o ∧ Safe (call.apply o)) calls start ↔
      AllMeet apply (fun call o => call.Possible o ∧ call.Spares o) calls start :=
  allMeet_congr OpenInv begins
    (fun call _ inv => and_congr_right fun possible =>
      ⟨inv.spares_of_safe call, fun spares => (inv.apply call possible spares).safe⟩)
    (fun call _ inv ⟨possible, spares⟩ => inv.apply call possible spares)

def nothingOpen : OpenFiles where
  files := oneTable
  tree := vfsInit 100
  data _ := .empty
  blocks := ∅
  made := 1
  birth _ := 0
  opened _ := 0

theorem nothingOpen_inv : OpenInv nothingOpen where
  counted := exact_iff_counted.mp oneTable_exact
  few := by decide
  held := ⟨Finset.mem_singleton_self 100, fun _ _ => nofun, fun _ _ _ => nofun, fun _ _ => nodup_nil, fun _ _ _ _ _ => nofun⟩
  owned := ⟨fun _ _ _ => nofun, fun _ _ _ _ _ => nofun⟩
  nodes := nofun

def fileA : Name := [97]

def closedFirst : List OpenCall :=
  [.open 1 [] fileA oCreat ⟨some 200, true, true⟩ (some 8), .write 1 0 [1, 2, 3] (some 300), .close 1 0, .unlink [] fileA]

theorem open_files_safe_closed : OpenInv nothingOpen ∧
    AllMeet apply (fun call o => call.Possible o ∧ Safe (call.apply o)) closedFirst nothingOpen ∧
    (runAll apply closedFirst nothingOpen).tree.live = {100} := by
  have spared : AllMeet apply (fun call o => call.Possible o ∧ call.Spares o) closedFirst nothingOpen := by
    refine ⟨⟨⟨by decide, by decide, by decide, ?_⟩, trivial⟩, ⟨⟨by decide, by decide⟩, trivial⟩, ⟨⟨by decide, trivial⟩, trivial⟩,
      ⟨⟨nofun, by decide⟩, fun _ _ _ _ file used => ?_⟩, trivial⟩
    · exact fun file _ => notMem_empty file
    · exact absurd used (eq_empty_iff_forall_notMem.mp (by decide) file)
  exact ⟨nothingOpen_inv, (open_files_safe_iff_spared nothingOpen nothingOpen_inv closedFirst).mpr spared, by decide⟩

/-- A file is removed while a descriptor leads to it. -/
def openStill : List OpenCall :=
  [.open 1 [] fileA oCreat ⟨some 200, true, true⟩ (some 8), .write 1 0 [1, 2, 3] (some 300), .unlink [] fileA]

/-- The node and the buffer are freed, and a file made next gets the address: the descriptor leads to it. -/
theorem open_file_freed_with_its_name : OpenInv nothingOpen ∧ AllMeet OpenCall.apply OpenCall.Possible openStill nothingOpen ∧
    ¬ Safe (runAll apply openStill nothingOpen) ∧
    ∃ call : OpenCall, call.Possible (runAll apply openStill nothingOpen) ∧
      (call.apply (runAll apply openStill nothingOpen)).birth 200 = 2 ∧
      (call.apply (runAll apply openStill nothingOpen)).opened 8 = 1 ∧
      (call.apply (runAll apply openStill nothingOpen)).fileOf 1 0 = some 8 ∧
      (call.apply (runAll apply openStill nothingOpen)).nodeOf 8 = 200 := by
  refine ⟨nothingOpen_inv, ⟨⟨by decide, by decide, by decide, ?_⟩, ⟨by decide, by decide⟩, ⟨nofun, by decide⟩, trivial⟩, ?_,
    .open 1 [] [98] oCreat ⟨some 200, true, true⟩ (some 9), ⟨by decide, by decide, by decide, ?_⟩, by decide⟩
  · exact fun file _ => notMem_empty file
  · intro safe
    exact absurd (safe.2 8 (by decide)).1 (by decide)
  · intro file given
    cases given
    decide

end Sirius.Fs.Ramfs
