import CardSort.Deck

/-!
# Lines of a deck

A statement that starts on a line without indentation is a block of lines: those that follow it
and are indented continue it, and comments and blank lines say nothing.

* `Block` — the lines of such a statement; `Block.text` joins them.
* `Laid` — the lines of a text are blocks.
* `statements_of_laid` — **the statements of a text laid out in blocks are those of its blocks**.
-/

set_option autoImplicit false

namespace CardSort.Deck

/-- The lines of a statement that starts on a line without indentation. -/
structure Block where
  head : List Char
  tail : List (List Char)
  head_isCode : isCode head = true
  head_isIndented : isIndented head = false
  /-- A later line with code continues the statement. -/
  tail_continues : ∀ line ∈ tail, isCode line = true →
    isIndented line = true ∧ opensStatement (Text.trim line) = false
deriving DecidableEq

namespace Block

/-- All lines of the block. -/
def lines (b : Block) : List (List Char) := b.head :: b.tail

/-- The statement of the block: its lines joined by one space each. -/
def text (b : Block) : String :=
  String.ofList ((b.tail.filter isCode).foldl
    (fun joined line => joined ++ ' ' :: Text.trim line) (Text.trim b.head))

/-- The keyword of the statement. -/
def keyword (b : Block) : String := (Statement.of b.text).keyword

end Block

/-- The lines of the text are the blocks, one after the other; lines that say nothing may stand in
front of them. -/
def Laid (text : String) (bs : List Block) : Prop :=
  ∃ front, Text.lines text.toList = front ++ bs.flatMap Block.lines ∧
    ∀ line ∈ front, isCode line = false

/-- Lines that continue a statement are joined to it. -/
theorem joinFrom_continuation {tail : List (List Char)}
    (h : ∀ line ∈ tail, isCode line = true →
      isIndented line = true ∧ opensStatement (Text.trim line) = false)
    (joined : List Char) (rest : List (List Char)) :
    joinFrom (some joined) (tail.filter isCode ++ rest) =
      joinFrom (some ((tail.filter isCode).foldl
        (fun joined line => joined ++ ' ' :: Text.trim line) joined)) rest := by
  induction tail generalizing joined with
  | nil => rfl
  | cons line tail ih =>
    have htail := ih fun l hl => h l (List.mem_cons_of_mem _ hl)
    cases hcode : isCode line with
    | false => simpa [List.filter_cons, hcode] using htail joined
    | true =>
      obtain ⟨hindented, hopens⟩ := h line List.mem_cons_self hcode
      simp only [List.filter_cons, hcode, if_true, List.cons_append, List.foldl_cons]
      rw [← htail, joinFrom]
      simp [hindented, hopens]

/-- A block closes the statement in front of it and opens one of its own. -/
theorem joinFrom_block (current : Option (List Char)) (b : Block) (rest : List (List Char)) :
    joinFrom current (b.lines.filter isCode ++ rest) =
      current.toList ++ joinFrom (some b.text.toList) rest := by
  have htail := joinFrom_continuation b.tail_continues (Text.trim b.head) rest
  simp only [Block.lines, List.filter_cons, b.head_isCode, if_true, List.cons_append, joinFrom]
  cases current with
  | none => simp [htail, Block.text]
  | some joined => simp [b.head_isIndented, htail, Block.text]

theorem joinFrom_blocks (current : Option (List Char)) (bs : List Block) :
    joinFrom current ((bs.flatMap Block.lines).filter isCode) =
      current.toList ++ bs.map fun b => b.text.toList := by
  induction bs generalizing current with
  | nil => simp [joinFrom]
  | cons b bs ih =>
    rw [List.flatMap_cons, List.filter_append, joinFrom_block, ih]
    rfl

/-- **The statements of a text laid out in blocks are those of its blocks.** -/
theorem statements_of_laid {text : String} {bs : List Block} (h : Laid text bs) :
    statements text = bs.map Block.text := by
  obtain ⟨front, hlines, hfront⟩ := h
  have hnone : front.filter isCode = [] :=
    List.filter_eq_nil_iff.2 fun line hline => by simp [hfront line hline]
  rw [statements, hlines, List.filter_append, hnone, List.nil_append, joinFrom_blocks]
  simp

end CardSort.Deck
