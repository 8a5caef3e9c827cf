import Patchwork.Proofs.Hunk.Rewriting

/-!
# Hunks as one replacement

Every hunk is looked for in the lines as those in front of it have left them. Where hunks come in
the order of their places, each of them is about a block of the lines as they were at first, which
lies by as much away from the hunk's anchor as the hunks in front of it have gained
(`Hunk.blocks`). Applying the hunks one after another is replacing all blocks at once. Main
statement: `foldlM_applyTo`.
-/

namespace Patchwork

open HunkLine (oldTexts newTexts)

/-- Lines that stand somewhere in a file, and those that take their place. -/
structure Block where
  start : Int
  old : List String
  new : List String
  deriving DecidableEq

namespace Block

/-- The block's old lines are in the file at its place. -/
def Stands (lines : List String) (b : Block) : Prop :=
  0 ≤ b.start ∧ b.start ≤ lines.length ∧ (lines.drop b.start.toNat).take b.old.length = b.old

instance (lines : List String) (b : Block) : Decidable (b.Stands lines) :=
  inferInstanceAs (Decidable (_ ∧ _))

/-- The block ends where the other begins, or in front of it. -/
def Before (b other : Block) : Prop := b.start + b.old.length ≤ other.start

instance (b other : Block) : Decidable (b.Before other) := inferInstanceAs (Decidable (_ ≤ _))

/-- The lines from `i` on, the new lines of each block in the place of its old ones. What lies
between the blocks is kept. -/
def replaceFrom (lines : List String) (i : Nat) : List Block → List String
  | [] => lines.drop i
  | b :: blocks =>
    (lines.drop i).take (b.start.toNat - i) ++ b.new ++
      replaceFrom lines (b.start.toNat + b.old.length) blocks

/-- Lines with every block replaced. -/
def replaceAll (lines : List String) (blocks : List Block) : List String :=
  replaceFrom lines 0 blocks

theorem Before.trans {a b c : Block} (hab : a.Before b) (hbc : b.Before c) : a.Before c := by
  simp only [Before] at hab hbc ⊢
  omega

instance : Trans Before Before Before := ⟨Before.trans⟩

/-- A block that is in the file does not go on beyond its end. -/
theorem Stands.le_length {lines : List String} {b : Block} (h : b.Stands lines) :
    b.start.toNat + b.old.length ≤ lines.length := by
  obtain ⟨hpos, hle, hold⟩ := h
  have hlength := congrArg List.length hold
  rw [List.length_take, List.length_drop] at hlength
  omega

end Block

namespace Hunk

/-- What the hunk makes of lines with no file around them. -/
def applyTo (h : Hunk) (lines : List String) : Except HunkError (List String) :=
  ((LineSet.ofLines lines).splice h).map fun done ↦ done.1.lines

/-- The block that the hunk is about when the lines have grown by `grown` in front of it. -/
def block (grown : Int) (h : Hunk) : Block :=
  ⟨h.anchor - grown, oldTexts h.lines, newTexts h.lines⟩

/-- The blocks that hunks are about, in the lines as they are in front of the first. -/
def blocks (hunks : List Hunk) : List Block :=
  hunks.mapIdx fun k h ↦ h.block ((hunks.take k).map growth).sum

private def blocksFrom (grown : Int) (hunks : List Hunk) : List Block :=
  hunks.mapIdx fun k h ↦ h.block (grown + ((hunks.take k).map growth).sum)

private theorem blocks_eq (hunks : List Hunk) : blocks hunks = blocksFrom 0 hunks := by
  simp only [blocks, blocksFrom, Int.zero_add]

private theorem blocksFrom_cons (grown : Int) (h : Hunk) (hunks : List Hunk) :
    blocksFrom grown (h :: hunks) = h.block grown :: blocksFrom (grown + h.growth) hunks := by
  simp [blocksFrom, List.mapIdx_cons, Int.add_assoc]

variable {h : Hunk} {hunks : List Hunk} {lines result : List String}

/-- A hunk with a text replaces the lines of its old side, if they are there. -/
theorem applyTo_eq_ok_iff (htext : ∃ line ∈ h.lines, line ≠ .noNewline) :
    h.applyTo lines = .ok result ↔
      h.anchor ≤ lines.length ∧
        (lines.drop h.anchor).take (oldTexts h.lines).length = oldTexts h.lines ∧
        result = lines.take h.anchor ++ newTexts h.lines ++
          lines.drop (h.anchor + (oldTexts h.lines).length) := by
  have hcomparable : (LineSet.ofLines lines).comparable = id := rfl
  have hcount : h.lines.countP HunkLine.isOld = (oldTexts h.lines).length := by
    rw [length_oldTexts, oldLines, List.countP_eq_length_filter]
  have hresult {t : LineSet} (ht : (LineSet.ofLines lines).Spliced h.anchor h.lines t) :
      t.lines = lines.take h.anchor ++ newTexts h.lines ++
        lines.drop (h.anchor + (oldTexts h.lines).length) := by
    rw [ht.lines, hcomparable, List.map_id, hcount]
    rfl
  constructor
  · intro happly
    cases hsplice : (LineSet.ofLines lines).splice h with
    | error e =>
      rw [applyTo, hsplice] at happly
      cases happly
    | ok done =>
      rw [applyTo, hsplice] at happly
      cases happly
      obtain ⟨hfits, ht, -⟩ := LineSet.fits_of_splice hsplice
      have hle : h.anchor + (oldTexts h.lines).length ≤ lines.length :=
        hcount ▸ LineSet.le_length_of_fits hfits htext
      have hlines : lines = lines.take h.anchor ++ (oldTexts h.lines).map id ++
          lines.drop (h.anchor + h.lines.countP HunkLine.isOld) := LineSet.lines_eq_of_fits hfits
      refine ⟨by omega, ?_, hresult ht⟩
      have hfront : (lines.take h.anchor).length = h.anchor := by
        rw [List.length_take]
        omega
      conv => lhs; rw [hlines, List.map_id, List.append_assoc]
      rw [List.drop_left' hfront, List.take_left]
  · rintro ⟨hle, hold, rfl⟩
    have hfront : (lines.take h.anchor).length = h.anchor := List.length_take_of_le hle
    have hbehind : oldTexts h.lines ++ (lines.drop h.anchor).drop (oldTexts h.lines).length =
        lines.drop h.anchor := by
      conv => lhs; lhs; rw [← hold]
      exact List.take_append_drop _ _
    have hlines : (LineSet.ofLines lines).lines = lines.take h.anchor ++
        (oldTexts h.lines).map (LineSet.ofLines lines).comparable ++
          (lines.drop h.anchor).drop (oldTexts h.lines).length := by
      rw [hcomparable, List.map_id, List.append_assoc, hbehind, List.take_append_drop]
      rfl
    have hfits := LineSet.fits_of_lines_eq hlines
    rw [hfront] at hfits
    obtain ⟨t, hsplice, ht⟩ := LineSet.splice_of_fits hfits
    rw [applyTo, hsplice]
    exact congrArg Except.ok (hresult ht)

section Behind

variable {i k : Nat} {done : List String}

private theorem start_block (hanchor : h.anchor = done.length + k) :
    (h.block (done.length - i)).start = ((i + k : Nat) : Int) := by
  simp only [block, hanchor]
  omega

/-- Where lines in `done` have taken the place of the first `i`, a hunk that comes behind them and
`k` others replaces the block that it is about. -/
private theorem applyTo_append_eq_ok_iff (hi : i ≤ lines.length)
    (htext : ∃ line ∈ h.lines, line ≠ .noNewline) (hanchor : h.anchor = done.length + k) :
    h.applyTo (done ++ lines.drop i) = .ok result ↔
      (h.block (done.length - i)).Stands lines ∧
        result = done ++ (lines.drop i).take k ++ newTexts h.lines ++
          lines.drop (i + k + (oldTexts h.lines).length) := by
  have hle : h.anchor ≤ (done ++ lines.drop i).length ↔ i + k ≤ lines.length := by
    rw [hanchor, List.length_append, List.length_drop]
    omega
  have hdrop (n : Nat) : (done ++ lines.drop i).drop (done.length + n) = lines.drop (i + n) := by
    rw [List.drop_length_add_append, List.drop_drop]
  have htake : (done ++ lines.drop i).take h.anchor = done ++ (lines.drop i).take k := by
    rw [hanchor, List.take_length_add_append]
  rw [applyTo_eq_ok_iff htext, Block.Stands, start_block hanchor, hle, htake, hanchor, hdrop k,
    Nat.add_assoc, hdrop, Int.toNat_natCast, ← Nat.add_assoc]
  simp only [block, Int.natCast_nonneg, Int.ofNat_le, true_and, and_assoc]

variable (done) in
/-- Hunks that come behind lines in `done` which have taken the place of the first `i` replace the
blocks that they are about. -/
private theorem foldlM_applyTo_append (hi : i ≤ lines.length)
    (htext : ∀ h ∈ hunks, ∃ line ∈ h.lines, line ≠ .noNewline)
    (hordered : hunks.IsChain fun h next ↦ h.after ≤ next.anchor)
    (hfirst : ∀ h ∈ hunks.head?, done.length ≤ h.anchor) :
    hunks.foldlM (fun lines h ↦ h.applyTo lines) (done ++ lines.drop i) = .ok result ↔
      (∀ b ∈ blocksFrom (done.length - i) hunks, b.Stands lines) ∧
        result = done ++ Block.replaceFrom lines i (blocksFrom (done.length - i) hunks) := by
  induction hunks generalizing i done with
  | nil => simp [blocksFrom, Block.replaceFrom, pure, Except.pure, eq_comm]
  | cons h hunks ih =>
    rw [List.forall_mem_cons] at htext
    obtain ⟨k, hanchor⟩ := Nat.exists_eq_add_of_le (hfirst h rfl)
    obtain ⟨hnext, hordered⟩ := List.isChain_cons.1 hordered
    have happly {result : List String} : h.applyTo (done ++ lines.drop i) = .ok result ↔ _ :=
      applyTo_append_eq_ok_iff hi htext.1 hanchor
    rw [List.foldlM_cons, blocksFrom_cons, List.forall_mem_cons]
    by_cases hstands : (h.block (done.length - i)).Stands lines
    · have hbehind : i + k + (oldTexts h.lines).length ≤ lines.length := by
        have hle := hstands.le_length
        rwa [start_block hanchor, Int.toNat_natCast] at hle
      have hafter : (done ++ (lines.drop i).take k ++ newTexts h.lines).length = h.after := by
        rw [after_eq hanchor, List.length_append, List.length_append, List.length_take,
          List.length_drop, Nat.min_eq_left (by omega)]
      have hgrown : (done.length - i + h.growth : Int) =
          h.after - (i + k + (oldTexts h.lines).length : Nat) := by
        rw [after_eq hanchor, growth_eq]
        omega
      rw [and_iff_right hstands, happly.2 ⟨hstands, rfl⟩]
      refine (ih _ hbehind htext.2 hordered (hafter ▸ hnext)).trans ?_
      rw [hafter, ← hgrown, Block.replaceFrom, start_block hanchor, Int.toNat_natCast,
        Nat.add_sub_cancel_left]
      simp only [block, List.append_assoc]
    · cases hresult : h.applyTo (done ++ lines.drop i) with
      | ok lines' => exact absurd (happly.1 hresult).1 hstands
      | error e => simp [hstands, bind, Except.bind]

end Behind

/-- Hunks in the order of their places are about blocks in that order. -/
private theorem isChain_blocksFrom {grown : Int}
    (hordered : hunks.IsChain fun h next ↦ h.after ≤ next.anchor) :
    (blocksFrom grown hunks).IsChain Block.Before := by
  induction hunks generalizing grown with
  | nil => exact .nil
  | cons h hunks ih =>
    obtain ⟨hnext, hordered⟩ := List.isChain_cons.1 hordered
    rw [blocksFrom_cons, List.isChain_cons]
    refine ⟨fun b hb ↦ ?_, ih hordered⟩
    cases hunks with
    | nil => cases hb
    | cons next hunks =>
      rw [blocksFrom_cons] at hb
      cases hb
      have hle := hnext next rfl
      simp only [Block.Before, block, growth_eq, after, ← length_newTexts] at hle ⊢
      omega

/-- Hunks that each have a text, in the order of their places, apply one after another exactly when
all the blocks that they are about are in the lines, and the result is the lines with every one of
these replaced. No two of the blocks overlap. -/
theorem foldlM_applyTo (htext : ∀ h ∈ hunks, ∃ line ∈ h.lines, line ≠ .noNewline)
    (hordered : hunks.IsChain fun h next ↦ h.after ≤ next.anchor) :
    (∀ result, hunks.foldlM (fun lines h ↦ h.applyTo lines) lines = .ok result ↔
      (∀ b ∈ blocks hunks, b.Stands lines) ∧ result = Block.replaceAll lines (blocks hunks)) ∧
    (blocks hunks).Pairwise Block.Before := by
  rw [blocks_eq]
  refine ⟨fun result ↦ ?_, (isChain_blocksFrom hordered).pairwise⟩
  exact foldlM_applyTo_append [] (Nat.zero_le _) htext hordered fun _ _ ↦ Nat.zero_le _

section Instance

/-- Hunks next to each other, one of which only adds and one only removes, and one at the end. -/
def adjacent : List Hunk :=
  [⟨1, 1, [.add "x", .add "y", .context "a"]⟩, ⟨2, 4, [.remove "b"]⟩, ⟨3, 4, [.add "z"]⟩,
    ⟨4, 6, [.context "d", .add "e", .noNewline]⟩]

theorem foldlM_applyTo_adjacent :
    (∀ h ∈ adjacent, ∃ line ∈ h.lines, line ≠ .noNewline) ∧
      adjacent.IsChain (fun h next ↦ h.after ≤ next.anchor) ∧
      adjacent.foldlM (fun lines h ↦ h.applyTo lines) ["a", "b", "c", "d"] =
        .ok ["x", "y", "a", "z", "c", "d", "e"] := by
  have htext : ∀ h ∈ adjacent, ∃ line ∈ h.lines, line ≠ .noNewline := by decide
  have hordered : adjacent.IsChain fun h next ↦ h.after ≤ next.anchor := by decide
  exact ⟨htext, hordered, ((foldlM_applyTo htext hordered).1 _).2 (by decide)⟩

end Instance

end Hunk

end Patchwork
