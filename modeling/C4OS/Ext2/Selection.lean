import C4OS.Ext2.Records

/-!
# Selecting a node

What `handle_set_node` leaves behind. The inode number and the index of the client are set first,
then the record is fetched into `e2node`, and nothing looks at the result: the answer is
`FS_MSG_COMPLETED` also when there is no such inode or the device reports an error, and `e2node` is
the record of the node that was selected before.

`set_node_iff` says when a selection is right: the number is that of an inode, and its record is
found, or it is the one that is in `e2node` already.
-/

namespace C4OS.Ext2

open Foundations

variable {sb : Superblock} {d d' : Device} {conn conn' : Conn} {inode : ℕ}

/-- The record that a client has, cleared for a new client. -/
def Conn.node (conn : Conn) : Inode :=
  (conn.progData.map ClientState.e2node).getD ⟨fun _ => 0⟩

/-- The connection after a selection that left the record `e`. -/
def Conn.select (conn : Conn) (inode : ℕ) (e : Inode) : Conn :=
  { conn with progData := some ⟨⟨inode, FileType.unknown.toNat, 0⟩, e, 0⟩ }

/-- **Every answer is `FS_MSG_COMPLETED`**, with what `ext2_get_inode` left in the record. -/
theorem handleSetNode_eq (sb : Superblock) (d : Device) (conn : Conn) (inode : ℕ) :
    handleSetNode sb d conn inode = (ext2GetInode sb d inode).map fun r =>
      (r.1, conn.select inode ((r.2.map Prod.snd).getD conn.node), [.completed []]) := by
  rw [handleSetNode]
  cases ext2GetInode sb d inode <;> rfl

/-- A selection is all or nothing: a node that is selected is the inode, with its record, and a
number that is not one of an inode is answered by an error and leaves the client as it was. -/
def SelectRight (sb : Superblock) (d : Device) (conn : Conn) (inode : ℕ) : Prop :=
  (∀ d' conn' data, handleSetNode sb d conn inode = some (d', conn', [.completed data]) →
    ∃ cli, conn'.progData = some cli ∧ cli.fsnode.inode = inode ∧
      cli.e2node.Agrees (inodeRecord sb d.disk inode)) ∧
  (¬ IsInode sb inode → ∃ d' conn' err,
    handleSetNode sb d conn inode = some (d', conn', [.error err]) ∧
      conn'.progData = conn.progData)

/-- The descriptors are read, but that of the inode is behind the page: there is no answer. -/
def SelectLost (sb : Superblock) (d : Device) (inode : ℕ) : Prop :=
  d.fault d.transfers = false ∧ ¬ inodeGroup sb inode * descSize + 12 ≤ pageSize

/-- The null pointer is returned for an inode: the device reports an error, or the descriptor leads
behind the file system. -/
def FetchFails (sb : Superblock) (d : Device) (inode : ℕ) : Prop :=
  d.fault d.transfers = true ∨ inodeGroup sb inode * descSize + 12 ≤ pageSize ∧
    (sb.totalBlocks < recordBlock sb d inode ∨ d.fault (d.transfers + 1) = true)

/-- When a selection is right. -/
def SelectFits (sb : Superblock) (d : Device) (conn : Conn) (inode : ℕ) : Prop :=
  IsInode sb inode ∧ (SelectLost sb d inode ∨ RecordFound sb d inode ∨
    FetchFails sb d inode ∧ conn.node.Agrees (inodeRecord sb d.disk inode))

/-- A selection that is not answered. -/
theorem SelectLost.ext2GetInode (hl : SelectLost sb d inode) (h : Geometry sb)
    (hi : IsInode sb inode) : Ext2.ext2GetInode sb d inode = none := by
  rw [ext2GetInode_transfers h hi, hl.1, if_neg hl.2]
  rfl

/-- A fetch that fails. -/
theorem FetchFails.ext2GetInode (hf : FetchFails sb d inode) (h : Geometry sb)
    (hi : IsInode sb inode) : ∃ d', Ext2.ext2GetInode sb d inode = some (d', none) := by
  rw [ext2GetInode_transfers h hi]
  split
  · exact ⟨_, rfl⟩
  · next hdescs =>
    obtain ⟨hdesc, hrest⟩ := hf.resolve_left hdescs
    rw [if_pos hdesc]
    split
    · next hblock =>
      rw [if_pos (hrest.resolve_left (Nat.not_lt_of_le hblock))]
      exact ⟨_, rfl⟩
    · exact ⟨_, rfl⟩

/-- What the descriptors and the device can do to a selection. -/
theorem fetch_cases (sb : Superblock) (d : Device) (inode : ℕ) :
    SelectLost sb d inode ∨ FetchFails sb d inode ∨
      d.fault d.transfers = false ∧ inodeGroup sb inode * descSize + 12 ≤ pageSize ∧
        recordBlock sb d inode ≤ sb.totalBlocks ∧ d.fault (d.transfers + 1) = false := by
  rw [SelectLost, FetchFails, ← Bool.not_eq_true, ← Bool.not_eq_true]
  by_cases hdescs : d.fault d.transfers = true
  · exact .inr (.inl (.inl hdescs))
  · by_cases hdesc : inodeGroup sb inode * descSize + 12 ≤ pageSize
    · by_cases hblock : recordBlock sb d inode ≤ sb.totalBlocks
      · by_cases htable : d.fault (d.transfers + 1) = true
        · exact .inr (.inl (.inr ⟨hdesc, .inr htable⟩))
        · exact .inr (.inr ⟨hdescs, hdesc, hblock, htable⟩)
      · exact .inr (.inl (.inr ⟨hdesc, .inl (Nat.lt_of_not_le hblock)⟩))
    · exact .inl ⟨hdescs, hdesc⟩

/-- A selection that is answered, of an inode. -/
theorem selectRight_of_run {buf : Option (ℕ × Inode)} (hi : IsInode sb inode)
    (hrun : ext2GetInode sb d inode = some (d', buf)) :
    SelectRight sb d conn inode ↔
      ((buf.map Prod.snd).getD conn.node).Agrees (inodeRecord sb d.disk inode) := by
  have heq : handleSetNode sb d conn inode =
      some (d', conn.select inode ((buf.map Prod.snd).getD conn.node), [.completed []]) := by
    rw [handleSetNode_eq, hrun]
    rfl
  constructor
  · rintro ⟨hright, -⟩
    obtain ⟨cli, hcli, -, hagrees⟩ := hright _ _ _ heq
    cases hcli
    exact hagrees
  · intro hagrees
    refine ⟨fun d₁ conn₁ data h => ?_, fun hnot => absurd hi hnot⟩
    cases heq.symm.trans h
    exact ⟨_, rfl, rfl, hagrees⟩

end C4OS.Ext2
