import TransparencyLog.Proofs.Outcome
import TransparencyLog.Proofs.Tree.Descent

/-!
# Checking a path with words

A client holds sizes and positions in words of 64 bits, and these come unchecked from other parties. Here
the check of an audit path is written with such words: a sum that does not fit stops it, and so does a
loop that is not done after a given number of turns. For no size and no index does either happen.

* `Trap`, `Word.add`: what stops a computation with words;
* `climbWords`, `verifyAuditWords`: the check with words, and a loop of 64 turns;
* `turnWords_eq`, `climbWords_eq`: the words are the numbers, turn by turn and for a whole climb;
* `climbWords_endless`: a loop with fewer turns than the tree has levels is stopped;
* **`verifyAudit_words`**: the check with words is never stopped, and accepts what the descent from the
  root accepts.
-/

namespace TransparencyLog.Tree

/-! ## Words -/

/-- What stops a computation with words. -/
inductive Trap where
  /-- A sum that does not fit into a word, a difference below zero, or a shift by as many places as a
  word has. -/
  | wrapped
  /-- A loop that needs more turns than it has. -/
  | endless
deriving DecidableEq, Repr

/-- The sum of two words, where it is a word. -/
def Word.add (a b : UInt64) : Except Trap UInt64 :=
  if a.toNat + b.toNat < UInt64.size then .ok (a + b) else .error .wrapped

theorem Word.add_eq {a b : UInt64} (h : a.toNat + b.toNat < UInt64.size) :
    Word.add a b = .ok (a + b) := if_pos h

theorem Word.toNat_add {a b : UInt64} (h : a.toNat + b.toNat < UInt64.size) :
    (a + b).toNat = a.toNat + b.toNat := by
  rw [UInt64.toNat_add]
  exact Nat.mod_eq_of_lt h

/-! ## The check -/

/-- Whether the node `index` is the last one of a level of `size` nodes and has no sibling. Its successor
is looked at only if it may have none. -/
def isPromotedWord (index size : UInt64) : Except Trap Bool :=
  if index % 2 = 0 then (Word.add index 1).map fun next => next == size else .ok false

/-- The number of nodes on the next level. -/
def sizeAboveWord (size : UInt64) : Except Trap UInt64 := Word.add (size / 2) (size % 2)

/-- One turn of the climb. -/
def turnWords (hash : Digest) (index size : UInt64) (path : List Digest) :
    Except Trap (Option (Digest × List Digest)) := do
  if ← isPromotedWord index size then return some (hash, path)
  match path with
  | [] => return none
  | other :: rest =>
    return some (if index % 2 = 1 then branchHash other hash else branchHash hash other, rest)

/-- Climbs from the node `index` of a level of `size` nodes to the root, in at most `turns` turns. -/
def climbWords (turns : Nat) (hash : Digest) (index size : UInt64) (path : List Digest) :
    Except Trap (Option (Digest × List Digest)) :=
  if size ≤ 1 then .ok (some (hash, path))
  else match turns with
    | 0 => .error .endless
    | turns + 1 => do
      match ← turnWords hash index size path with
      | none => return none
      | some (joined, rest) => climbWords turns joined (index / 2) (← sizeAboveWord size) rest

/-- The check of an audit path with words, whose loop is stopped before a 65th turn. -/
def verifyAuditWords (root : Digest) (size index : UInt64) (path : List Digest) (data : Bytes) :
    Except Trap Bool :=
  if size ≤ index then .ok false
  else (climbWords 64 (leafHash data) index size path).map fun found => found == some (root, [])

/-! ## Words and numbers -/

section Climb

variable {hash : Digest} {index size : UInt64} {path : List Digest} {turns : Nat}

/-- The index has a successor wherever it is looked at, because the largest word is odd. -/
theorem isPromotedWord_eq : isPromotedWord index size =
    .ok (decide (index.toNat % 2 = 0 ∧ index.toNat + 1 = size.toNat)) := by
  have hlt := index.toNat_lt
  have hparity : index % 2 = 0 ↔ index.toNat % 2 = 0 := UInt64.toNat_inj.symm
  rw [isPromotedWord]
  split
  · next heven =>
    have heven' := hparity.mp heven
    have hfits : index.toNat + (1 : UInt64).toNat < UInt64.size := by
      change index.toNat + 1 < 2 ^ 64
      omega
    have hlast : index + 1 = size ↔ index.toNat + 1 = size.toNat := by
      rw [← UInt64.toNat_inj, Word.toNat_add hfits]
      rfl
    rw [Word.add_eq hfits]
    simp only [Except.map, beq_eq_decide, hlast, heven', true_and]
  · next hodd => simp only [mt hparity.mpr hodd, false_and, decide_false]

theorem sizeAboveWord_eq : sizeAboveWord size = .ok (size / 2 + size % 2) ∧
    (size / 2 + size % 2).toNat = size.toNat / 2 + size.toNat % 2 := by
  have hlt := size.toNat_lt
  have hfits : (size / 2).toNat + (size % 2).toNat < UInt64.size := by
    change size.toNat / 2 + size.toNat % 2 < 2 ^ 64
    omega
  exact ⟨Word.add_eq hfits, Word.toNat_add hfits⟩

theorem turnWords_eq : turnWords hash index size path =
    .ok (turn? hash index.toNat size.toNat path) := by
  have hparity : index % 2 = 1 ↔ index.toNat % 2 = 1 := UInt64.toNat_inj.symm
  rw [turnWords.eq_def, isPromotedWord_eq, ok_bind, turn?.eq_def]
  simp only [decide_eq_true_eq, hparity]
  split
  · rfl
  · cases path <;> rfl

theorem climbWords_of_le (h : size.toNat ≤ 1) : climbWords turns hash index size path =
    .ok (some (hash, path)) := by
  rw [climbWords.eq_def, if_pos (UInt64.le_iff_toNat_le.mpr h)]

theorem climbWords_zero (h : 1 < size.toNat) : climbWords 0 hash index size path = .error .endless := by
  have hsize : ¬size ≤ 1 := UInt64.not_le.mpr (UInt64.lt_iff_toNat_lt.mpr h)
  rw [climbWords.eq_def, if_neg hsize]

theorem climbWords_succ (h : 1 < size.toNat) : climbWords (turns + 1) hash index size path =
    match turn? hash index.toNat size.toNat path with
    | none => .ok none
    | some up => climbWords turns up.1 (index / 2) (size / 2 + size % 2) up.2 := by
  have hsize : ¬size ≤ 1 := UInt64.not_le.mpr (UInt64.lt_iff_toNat_lt.mpr h)
  rw [climbWords.eq_def, if_neg hsize]
  simp only [turnWords_eq, ok_bind, sizeAboveWord_eq.1]
  cases turn? hash index.toNat size.toNat path <;> rfl

/-- **A climb with words is one with numbers** if there are turns enough for all the levels. -/
theorem climbWords_eq (h : size.toNat ≤ 2 ^ turns) : climbWords turns hash index size path =
    .ok (climb? hash index.toNat size.toNat path) := by
  induction turns generalizing hash index size path with
  | zero => rw [climbWords_of_le h, climb?_of_le h]
  | succ turns ih =>
    rcases Nat.lt_or_ge 1 size.toNat with hmore | hone
    · have habove : (size / 2 + size % 2).toNat = size.toNat / 2 + size.toNat % 2 := sizeAboveWord_eq.2
      rw [climbWords_succ hmore, climb?_of_lt hmore, ← habove]
      cases turn? hash index.toNat size.toNat path with
      | none => rfl
      | some up => exact ih (by omega)
    · rw [climbWords_of_le hone, climb?_of_le hone]

/-- As long as the path has elements, every turn takes one at most. -/
theorem exists_turn (hash : Digest) (index size : Nat) (h : path ≠ []) :
    ∃ up, turn? hash index size path = some up ∧ path.length ≤ up.2.length + 1 := by
  cases path with
  | nil => exact absurd rfl h
  | cons other rest =>
    rw [turn?.eq_def]
    split
    · exact ⟨_, rfl, Nat.le_succ _⟩
    · exact ⟨_, rfl, Nat.le_refl _⟩

/-- The turns are counted as they are used: with fewer than there are levels, a path that is long enough
for them all is not climbed to its end. -/
theorem climbWords_endless (hsize : 2 ^ turns < size.toNat) (hpath : turns ≤ path.length) :
    climbWords turns hash index size path = .error .endless := by
  induction turns generalizing hash index size path with
  | zero => exact climbWords_zero hsize
  | succ turns ih =>
    have hpos := Nat.two_pow_pos turns
    have hmore : 1 < size.toNat := by omega
    have hnonempty : path ≠ [] := List.length_pos_iff.mp (by omega)
    have habove : (size / 2 + size % 2).toNat = size.toNat / 2 + size.toNat % 2 := sizeAboveWord_eq.2
    obtain ⟨up, hup, hlength⟩ := exists_turn hash index.toNat size.toNat hnonempty
    rw [climbWords_succ hmore, hup]
    exact ih (by omega) (by omega)

end Climb

/-! ## Every size and index -/

theorem verifyAuditWords_eq (root : Digest) (size index : UInt64) (path : List Digest) (data : Bytes) :
    verifyAuditWords root size index path data =
      .ok (verifyAudit root size.toNat index.toNat path data) := by
  have hturns : size.toNat ≤ 2 ^ 64 := Nat.le_of_lt size.toNat_lt
  rw [verifyAuditWords, verifyAudit]
  split
  · next hbeyond =>
    have hbeyond' := Nat.not_lt.mpr (UInt64.le_iff_toNat_le.mp hbeyond)
    simp only [hbeyond', decide_false, Bool.false_and]
  · next hwithin =>
    have hwithin' := UInt64.lt_iff_toNat_lt.mp (UInt64.not_le.mp hwithin)
    rw [climbWords_eq hturns]
    simp only [Except.map, hwithin', decide_true, Bool.true_and]

/-- **The check of an audit path is right for every size and every index that a word can hold.** It accepts
a path exactly if the index is below the size and the path, read from its end, leads from the root to the
leaf by halves of the tree, all of it used. Written with words, no sum wraps around, and the loop is done
after 64 turns. -/
theorem verifyAudit_words (root : Digest) (size index : UInt64) (path : List Digest) (data : Bytes) :
    (verifyAudit root size.toNat index.toNat path data = true ↔ index.toNat < size.toNat ∧
      rootAlong? (leafHash data) index.toNat size.toNat path.reverse = some root) ∧
    verifyAuditWords root size index path data =
      .ok (verifyAudit root size.toNat index.toNat path data) :=
  ⟨verifyAudit_eq_true_iff, verifyAuditWords_eq root size index path data⟩

end TransparencyLog.Tree
