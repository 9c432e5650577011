/-
A cursor that checks itself. It knows its source by byte offsets only: the text at an offset exists if a character
begins there, it can skip bytes only over ASCII text on its line, and go back only along its line, and each round of
a loop must take it forward. A check that fails has no outcome. Where the cursor stands at a place of the source, each
of its movements is the one that the place makes.
-/
import EcmaTokens.Diagnostic.Basic
import EcmaTokens.Proofs.Source.Behind
import EcmaTokens.Proofs.Source.Bytes
import EcmaTokens.Proofs.Source.Text
import EcmaTokens.Source.Scan

namespace EcmaTokens

/-! ## Plain text -/

/-- The text is ASCII and ends no line. -/
def isPlain (w : List Char) : Bool :=
  w.all fun c => isAscii c && !isLineTerminator c

theorem isPlain_iff {w : List Char} : isPlain w = true ↔ ∀ c ∈ w, isAscii c = true ∧ isLineTerminator c = false := by
  simp [isPlain]

theorem hasLineTerminator_of_isPlain {w : List Char} (h : isPlain w = true) : hasLineTerminator w = false := by
  rw [hasLineTerminator, List.any_eq_false]
  intro c hc
  simp [(isPlain_iff.1 h c hc).2]

/-! ## The cursor -/

/-- A cursor in a source. Its index and the start of its line count bytes. -/
structure Cursor where
  source : List Char
  index : Nat := 0
  line : Nat := 0
  lineStart : Nat := 0
  /-- A line terminator has been passed since the last token. -/
  lineBreak : Bool := false

/-- The byte `offset` bytes behind the cursor. -/
def Cursor.byteAt? (k : Cursor) (offset : Nat) : Option UInt8 :=
  (utf8Bytes k.source)[k.index + offset]?

/-- A line feed stands `offset` bytes behind the cursor. -/
def Cursor.feedAt (k : Cursor) (offset : Nat) : Bool :=
  (k.byteAt? offset).map Char.ofUInt8 == some '\n'

/-- The number of bytes from the cursor to the end of its source. -/
def Cursor.left (k : Cursor) : Nat :=
  utf8Length k.source - k.index

/-- The cursor behind the character in front of it, with the line feed of a pair. -/
def Cursor.over (k : Cursor) (c : Char) : Cursor :=
  let width := if c == '\r' && k.feedAt c.utf8Size then c.utf8Size + 1 else c.utf8Size
  let next := { k with index := k.index + width }
  if isLineTerminator c then { next with line := k.line + 1, lineStart := next.index } else next

/-- Reading with a cursor: no outcome if a check fails, else a value or a diagnostic, and the cursor behind it. -/
abbrev Checked := ExceptT Diagnostic (StateT Cursor Option)

/-- What a round of a loop comes to: another round, or the end of the loop. -/
inductive Turn (σ α : Type) where
  | again (s : σ)
  | done (a : α)

namespace Checked

/-! ## Movements -/

/-- The value, which must be there. -/
def demand {α : Type} : Option α → Checked α
  | some a => return a
  | none => fun _ => none

/-- Goes on if the condition holds. -/
def check (b : Bool) : Checked Unit :=
  demand (if b then some () else none)

/-- The text behind the cursor. A character must begin there. -/
def rest : Checked (List Char) := do
  let k ← get
  let (_, rest) ← demand (splitBytes? k.source k.index)
  return rest

def peek : Checked (Option Char) :=
  return (← rest).head?

def peekSecond : Checked (Option Char) :=
  return (← rest).tail.head?

def startsWith (front : List Char) : Checked Bool :=
  return front.isPrefixOf (← rest)

def index : Checked Nat :=
  return (← get).index

/-- The location of the cursor, whose line must not start behind it. -/
def location : Checked Location := do
  let k ← get
  check (k.lineStart ≤ k.index)
  return ⟨k.line, k.index - k.lineStart, k.index⟩

/-- The text from an offset to the cursor. They must be in order, and characters must end at both. -/
def sliceFrom (start : Nat) : Checked (List Char) := do
  let k ← get
  demand (sliceBytes? k.source start k.index)

/-- Goes over the next character. -/
def bump : Checked (Option Char) := do
  match ← peek with
  | some c =>
    modify (·.over c)
    return some c
  | none => return none

def bumpIf (p : Char → Bool) : Checked (Option Char) := do
  match ← peek with
  | some c => if p c then bump else return none
  | none => return none

/-- Repeats the rounds of a loop. A round that asks for another one must have taken the cursor forward. -/
def loop {σ α : Type} (round : σ → Checked (Turn σ α)) (s : σ) (k : Cursor) : Option (Except Diagnostic α × Cursor) :=
  match round s k with
  | some (.ok (.again s'), k') => if k'.left < k.left then loop round s' k' else none
  | some (.ok (.done a), k') => some (.ok a, k')
  | some (.error d, k') => some (.error d, k')
  | none => none
termination_by k.left

def bumpRound (p : Char → Bool) (_ : Unit) : Checked (Turn Unit Unit) := do
  match ← bumpIf p with
  | some _ => return .again ()
  | none => return .done ()

def bumpWhile (p : Char → Bool) : Checked Unit :=
  loop (bumpRound p) ()

/-- The byte is an ASCII character and ends no line. -/
def isPlainByte (b : UInt8) : Bool :=
  b.toNat < 128 && Char.ofUInt8 b != '\n' && Char.ofUInt8 b != '\r'

/-- Goes over bytes, which must be there and plain. -/
def advanceAscii (n : Nat) : Checked Unit := do
  let bytes := utf8Bytes (← rest)
  check (n ≤ bytes.length && (bytes.take n).all isPlainByte)
  modify fun k => { k with index := k.index + n }

/-- Goes back to an offset, which must be one of the line and of a character. -/
def reset (start : Nat) : Checked Unit := do
  let k ← get
  check (k.lineStart ≤ start && start ≤ utf8Length k.source && start ≤ k.index && (splitBytes? k.source start).isSome)
  set { k with index := start }

def noteLineBreak : Checked Unit :=
  modify fun k => { k with lineBreak := true }

/-- Malformed text at the cursor. -/
def malformed {α : Type} (m : Message) : Checked α := do
  let loc ← location
  throw (.malformed loc m)

/-! ## Sequences -/

section Bind

variable {α β : Type} {m : Checked α} {f : α → Checked β} {k k' : Cursor}

theorem bind_of_ok {a : α} (h : m k = some (.ok a, k')) : (m >>= f) k = f a k' := by
  simp [bind, ExceptT.bind, ExceptT.mk, StateT.bind, h, ExceptT.bindCont]

theorem bind_of_error {d : Diagnostic} (h : m k = some (.error d, k')) : (m >>= f) k = some (.error d, k') := by
  simp only [bind, ExceptT.bind, ExceptT.mk, StateT.bind, h, ExceptT.bindCont]
  rfl

end Bind

section Loop

variable {σ α : Type} {round : σ → Checked (Turn σ α)} {s s' : σ} {k k' : Cursor}

theorem loop_of_again (h : round s k = some (.ok (.again s'), k')) (hk : k'.left < k.left) :
    loop round s k = loop round s' k' := by
  rw [loop, h]
  exact if_pos hk

theorem loop_of_done {a : α} (h : round s k = some (.ok (.done a), k')) : loop round s k = some (.ok a, k') := by
  rw [loop, h]

theorem loop_of_error {d : Diagnostic} (h : round s k = some (.error d, k')) :
    loop round s k = some (.error d, k') := by
  rw [loop, h]

end Loop

end Checked

/-! ## Cursors at places -/

/-- The cursor that stands at a place of a source. -/
def Place.cursor (source : List Char) (lineBreak : Bool) (p : Place) : Cursor :=
  ⟨source, p.offset, p.position.line, p.position.lineStart, lineBreak⟩

/-- The place stands in the source, and its line starts in front of it. -/
structure Place.Within (source : List Char) (p : Place) : Prop where
  text : ∃ before, source = before ++ p.rest ∧ p.offset = utf8Length before
  line : p.position.lineStart ≤ p.offset

section Within

variable {source : List Char} {p : Place} {c : Char} {cs : List Char}

theorem Place.rest_next (h : p.rest = c :: cs) : (p.advance 1).rest = cs := by
  rw [Place.rest_advance, h]
  rfl

theorem Place.cutsClean_next (h : p.rest = c :: cs) (hc : isLineTerminator c = false) : CutsClean p.rest 1 :=
  .of_lineFree (by simp [h, hc])

theorem Place.Behind.within {before : List Char} (h : p.Behind source before) : p.Within source := by
  refine ⟨⟨before, h.eq_append, h.offset_eq⟩, ?_⟩
  rw [Place.offset, h.position]
  exact Position.lineStart_behind_le before

theorem Place.within_start (source : List Char) : (Place.start source).Within source :=
  (Place.Behind.start source).within

theorem Place.Within.advance (h : p.Within source) (n : Nat) : (p.advance n).Within source := by
  obtain ⟨before, hs, ho⟩ := h.text
  refine ⟨⟨before ++ p.rest.take n, ?_, ?_⟩, ?_⟩
  · rw [hs, Place.rest_advance, List.append_assoc, List.take_append_drop]
  · rw [Place.offset_advance, ho, utf8Length_append]
  · have hle := h.line
    have hlen := utf8Length_lines (p.rest.take n)
    rw [Place.offset_advance, Place.offset] at *
    show (p.position.advance _).lineStart ≤ _
    rw [Position.lineStart_advance]
    split <;> omega

end Within

namespace Checked

section Movements

variable {source : List Char} {b : Bool} {p : Place} {c : Char} {cs : List Char}

theorem get_apply (k : Cursor) : (get : Checked Cursor) k = some (.ok k, k) :=
  rfl

theorem left_at (hp : p.Within source) : (p.cursor source b).left = utf8Length p.rest := by
  obtain ⟨before, hs, ho⟩ := hp.text
  show utf8Length source - p.offset = _
  rw [ho, hs, utf8Length_append, Nat.add_sub_cancel_left]

/-- A round that goes over characters is followed by the next one. -/
theorem loop_at {σ α : Type} {round : σ → Checked (Turn σ α)} {s s' : σ} {b' : Bool} {n : Nat} (hp : p.Within source)
    (hr : p.rest ≠ []) (hn : 0 < n)
    (h : round s (p.cursor source b) = some (.ok (.again s'), (p.advance n).cursor source b')) :
    loop round s (p.cursor source b) = loop round s' ((p.advance n).cursor source b') := by
  refine loop_of_again h ?_
  obtain ⟨c, cs, hc⟩ := List.exists_cons_of_ne_nil hr
  have hfront : 0 < utf8Length (p.rest.take n) := by
    obtain ⟨m, rfl⟩ := Nat.exists_eq_succ_of_ne_zero (Nat.ne_of_gt hn)
    rw [hc, List.take_succ_cons, utf8Length_cons]
    exact Nat.add_pos_left c.utf8Size_pos _
  have hsplit : utf8Length p.rest = utf8Length (p.rest.take n) + utf8Length (p.rest.drop n) := by
    rw [← utf8Length_append, List.take_append_drop]
  rw [left_at hp, left_at (hp.advance n), Place.rest_advance]
  omega

theorem index_apply (k : Cursor) : index k = some (.ok k.index, k) :=
  rfl

theorem check_of_true {b : Bool} (h : b = true) (k : Cursor) : check b k = some (.ok (), k) := by
  rw [h]; rfl

theorem rest_at (hp : p.Within source) : rest (p.cursor source b) = some (.ok p.rest, p.cursor source b) := by
  obtain ⟨before, hs, ho⟩ := hp.text
  have hsplit : splitBytes? source p.offset = some (before, p.rest) := by rw [hs, ho, splitBytes?_append]
  rw [rest, bind_of_ok (get_apply _)]
  show (demand (splitBytes? source p.offset) >>= _) _ = _
  rw [hsplit]
  rfl

theorem peek_at (hp : p.Within source) : peek (p.cursor source b) = some (.ok p.rest.head?, p.cursor source b) := by
  rw [peek, bind_of_ok (rest_at hp)]
  rfl

theorem peekSecond_at (hp : p.Within source) :
    peekSecond (p.cursor source b) = some (.ok p.rest.tail.head?, p.cursor source b) := by
  rw [peekSecond, bind_of_ok (rest_at hp)]
  rfl

theorem startsWith_at (hp : p.Within source) (front : List Char) :
    startsWith front (p.cursor source b) = some (.ok (front.isPrefixOf p.rest), p.cursor source b) := by
  rw [startsWith, bind_of_ok (rest_at hp)]
  rfl

theorem location_at (hp : p.Within source) :
    location (p.cursor source b) = some (.ok p.location, p.cursor source b) :=
  bind_of_ok (check_of_true (decide_eq_true hp.line) _)

theorem sliceFrom_at (hp : p.Within source) (n : Nat) :
    sliceFrom p.offset ((p.advance n).cursor source b) =
      some (.ok (p.rest.take n), (p.advance n).cursor source b) := by
  obtain ⟨before, hs, ho⟩ := hp.text
  have hslice : sliceBytes? source p.offset (p.advance n).offset = some (p.rest.take n) := by
    have hcut : source = before ++ p.rest.take n ++ p.rest.drop n := by
      rw [List.append_assoc, List.take_append_drop, hs]
    rw [Place.offset_advance, ho, ← utf8Length_append]
    conv_lhs => rw [hcut]
    exact sliceBytes?_append _ _ _
  rw [sliceFrom, bind_of_ok (get_apply _)]
  show demand (sliceBytes? source p.offset (p.advance n).offset) _ = _
  rw [hslice]
  rfl

/-- Bytes at a place, read as characters. -/
theorem byteAt_at (hp : p.Within source) (i : Nat) :
    ((p.cursor source b).byteAt? i).map Char.ofUInt8 = (byteChars p.rest)[i]? := by
  obtain ⟨before, hs, ho⟩ := hp.text
  show ((utf8Bytes source)[p.offset + i]?).map Char.ofUInt8 = _
  rw [byteChars, List.getElem?_map, hs, ho, ← List.getElem?_drop, drop_utf8Bytes]

theorem feedAt_at (hp : p.Within source) (h : p.rest = c :: cs) :
    (p.cursor source b).feedAt c.utf8Size = (cs.head? == some '\n') := by
  have hoff : (p.advance 1).offset = p.offset + c.utf8Size := by
    rw [Place.offset_advance, h, List.take_succ_cons, List.take_zero, utf8Length_cons, utf8Length_nil, Nat.add_zero]
  have hat := byteAt_at (b := b) (hp.advance 1) 0
  rw [Place.rest_advance, h, List.drop_succ_cons, List.drop_zero, ← List.head?_eq_getElem?] at hat
  have hbyte : ((p.cursor source b).byteAt? c.utf8Size).map Char.ofUInt8 = (byteChars cs).head? := by
    rw [← hat, Cursor.byteAt?, Cursor.byteAt?]
    show (source.flatMap _)[p.offset + _]?.map _ = (source.flatMap _)[(p.advance 1).offset + 0]?.map _
    rw [hoff, Nat.add_zero]
  rw [Cursor.feedAt, hbyte, Bool.eq_iff_iff, beq_iff_eq, beq_iff_eq, head?_byteChars_iff (by decide)]

/-- Going over a character that ends no line. -/
theorem over_at (h : p.rest = c :: cs) (hc : isLineTerminator c = false) :
    (p.cursor source b).over c = (p.advance 1).cursor source b := by
  have hadv : p.advance 1 = ⟨p.position.along c.utf8Size, cs⟩ := by
    have hpos : p.position.advance [c] = p.position.along c.utf8Size := by
      rw [Position.advance, if_neg (by simp [hc])]
      · rfl
      · rintro _ - ⟨⟩
    simp only [Place.advance, h, List.take_succ_cons, List.take_zero, hpos, List.drop_succ_cons, List.drop_zero]
  have hr : (c == '\r') = false := by
    rw [beq_eq_false_iff_ne]
    rintro rfl
    cases hc
  simp only [Cursor.over, hr, Bool.false_and, hc, Bool.false_eq_true, if_false, hadv]
  rfl

/-- Going over a line terminator as a whole. -/
theorem over_terminator (hp : p.Within source) (h : p.rest = c :: cs) (hc : isLineTerminator c = true) :
    (p.cursor source b).over c = (p.advance (terminatorWidth (c :: cs))).cursor source b := by
  simp only [Cursor.over, feedAt_at hp h, hc, if_true]
  by_cases hpair : c = '\r' ∧ cs.head? = some '\n'
  · obtain ⟨rfl, hhead⟩ := hpair
    obtain ⟨ds, rfl⟩ := List.head?_eq_some_iff.1 hhead
    have hadv : p.advance 2 = ⟨p.position.newLine 2, ds⟩ := by
      simp only [Place.advance, h, List.take_succ_cons, List.take_zero, List.drop_succ_cons, List.drop_zero]
      rfl
    rw [terminatorWidth, hadv]
    rfl
  · have hwidth : terminatorWidth (c :: cs) = 1 := by
      rw [terminatorWidth_cons (fun hr hh => hpair ⟨hr, hh⟩), if_pos hc]
    have hadv : p.advance 1 = ⟨p.position.newLine c.utf8Size, cs⟩ := by
      have hpos : p.position.advance [c] = p.position.newLine c.utf8Size := by
        rw [Position.advance, if_pos hc]
        · rfl
        · rintro _ - ⟨⟩
      simp only [Place.advance, h, List.take_succ_cons, List.take_zero, hpos, List.drop_succ_cons, List.drop_zero]
    have hif : (c == '\r' && cs.head? == some '\n') = false := by
      simpa using hpair
    simp only [hwidth, hadv, hif, Bool.false_eq_true, if_false]
    rfl

theorem bump_nil (hp : p.Within source) (h : p.rest = []) :
    bump (p.cursor source b) = some (.ok none, p.cursor source b) := by
  rw [bump, bind_of_ok (peek_at hp), h]
  rfl

theorem bump_at (hp : p.Within source) (h : p.rest = c :: cs) (hc : isLineTerminator c = false) :
    bump (p.cursor source b) = some (.ok (some c), (p.advance 1).cursor source b) := by
  rw [bump, bind_of_ok (peek_at hp), h, ← over_at h hc]
  rfl

theorem bump_terminator (hp : p.Within source) (h : p.rest = c :: cs) (hc : isLineTerminator c = true) :
    bump (p.cursor source b) =
      some (.ok (some c), (p.advance (terminatorWidth (c :: cs))).cursor source b) := by
  rw [bump, bind_of_ok (peek_at hp), h, ← over_terminator hp h hc]
  rfl

theorem bumpIf_at {q : Char → Bool} (hp : p.Within source) (h : p.rest = c :: cs) (hc : isLineTerminator c = false)
    (hq : q c = true) : bumpIf q (p.cursor source b) = some (.ok (some c), (p.advance 1).cursor source b) := by
  rw [bumpIf, bind_of_ok (peek_at hp), h, ← bump_at hp h hc]
  exact congrFun (if_pos hq) _

theorem bumpIf_not {q : Char → Bool} (hp : p.Within source) (h : p.rest.head?.any q = false) :
    bumpIf q (p.cursor source b) = some (.ok none, p.cursor source b) := by
  rw [bumpIf, bind_of_ok (peek_at hp)]
  cases hr : p.rest with
  | nil => rfl
  | cons c cs =>
    rw [hr, List.head?_cons, Option.any_some] at h
    exact congrFun (if_neg (by simp [h])) _

/-- The characters in front that satisfy a condition are gone over. -/
theorem bumpWhile_at {q : Char → Bool} (hp : p.Within source) (hq : ∀ c, q c = true → isLineTerminator c = false) :
    bumpWhile q (p.cursor source b) = some (.ok (), (p.advance (p.rest.takeWhile q).length).cursor source b) := by
  have stop : ∀ {p : Place}, p.Within source → p.rest.head?.any q = false →
      bumpWhile q (p.cursor source b) = some (.ok (), p.cursor source b) :=
    fun hp h => loop_of_done (bind_of_ok (bumpIf_not hp h))
  induction h : p.rest generalizing p with
  | nil => rw [stop hp (by rw [h]; rfl), List.takeWhile_nil, List.length_nil, Place.advance_zero]
  | cons c cs ih =>
    cases hc : q c with
    | true =>
      have hone : CutsClean p.rest 1 := Place.cutsClean_next h (hq c hc)
      have hrest : (p.advance 1).rest = cs := Place.rest_next h
      have hround : bumpRound q () (p.cursor source b) = some (.ok (.again ()), (p.advance 1).cursor source b) :=
        bind_of_ok (bumpIf_at hp h (hq c hc) hc)
      rw [List.takeWhile_cons, if_pos hc, List.length_cons, Nat.add_comm, Place.advance_add hone]
      exact (loop_at hp (by rw [h]; exact List.cons_ne_nil c cs) Nat.one_pos hround).trans (ih (hp.advance 1) hrest)
    | false =>
      rw [stop hp (by rw [h]; exact hc), List.takeWhile_cons, if_neg (by simp [hc]), List.length_nil,
        Place.advance_zero]

/-- On its line the cursor only changes its index. -/
theorem cursor_advance {n : Nat} (hn : hasLineTerminator (p.rest.take n) = false) :
    (p.advance n).cursor source b = { p.cursor source b with index := (p.advance n).offset } := by
  obtain ⟨hline, hstart⟩ := p.position.same_line hn
  show Cursor.mk _ _ (p.position.advance _).line (p.position.advance _).lineStart _ = _
  rw [hline, hstart]
  rfl

theorem all_isPlainByte {w : List Char} (hw : isPlain w = true) : (utf8Bytes w).all isPlainByte = true := by
  rw [List.all_eq_true]
  intro b hb
  obtain ⟨c, hc, hb⟩ := List.mem_flatMap.1 hb
  obtain ⟨ha, ht⟩ := isPlain_iff.1 hw c hc
  rw [encode_of_isAscii ha, List.mem_singleton] at hb
  have hlt : c.toNat < 128 := by simpa [isAscii] using ha
  rw [hb, isPlainByte, ofUInt8_ofNat ha, toNat_ofNat_of_isAscii ha, decide_eq_true hlt, Bool.true_and,
    Bool.and_eq_true, bne_iff_ne, bne_iff_ne]
  constructor
  · rintro rfl
    cases ht
  · rintro rfl
    cases ht

/-- ASCII text that ends no line is gone over. -/
theorem advanceAscii_at (hp : p.Within source) {w : List Char} (h : p.rest = w ++ cs)
    (hw : isPlain w = true) :
    advanceAscii w.length (p.cursor source b) = some (.ok (), (p.advance w.length).cursor source b) := by
  have hlen : (utf8Bytes w).length = w.length := by
    rw [length_utf8Bytes, utf8Length_of_isAscii fun c hc => (isPlain_iff.1 hw c hc).1]
  have htake : p.rest.take w.length = w := by rw [h, List.take_left]
  have hcheck : (decide (w.length ≤ (utf8Bytes p.rest).length) &&
      ((utf8Bytes p.rest).take w.length).all isPlainByte) = true := by
    rw [h, utf8Bytes_append, ← hlen, List.take_left, all_isPlainByte hw, Bool.and_true, List.length_append]
    exact decide_eq_true (Nat.le_add_right _ _)
  have hline : hasLineTerminator (p.rest.take w.length) = false := by rw [htake, hasLineTerminator_of_isPlain hw]
  have hoff : (p.advance w.length).offset = p.offset + w.length := by
    rw [Place.offset_advance, htake, ← hlen, length_utf8Bytes]
  rw [advanceAscii, bind_of_ok (rest_at hp), cursor_advance hline, hoff]
  exact bind_of_ok (check_of_true hcheck _)

/-- Where the line has not been left, the cursor goes back. -/
theorem reset_at (hp : p.Within source) {n : Nat} (hn : hasLineTerminator (p.rest.take n) = false) :
    reset p.offset ((p.advance n).cursor source b) = some (.ok (), p.cursor source b) := by
  obtain ⟨before, hs, ho⟩ := hp.text
  have hsplit : splitBytes? source p.offset = some (before, p.rest) := by rw [hs, ho, splitBytes?_append]
  have hlen : p.offset ≤ utf8Length source := by
    rw [ho, hs, utf8Length_append]
    exact Nat.le_add_right _ _
  have hback : p.offset ≤ (p.advance n).offset := by
    rw [Place.offset_advance]
    exact Nat.le_add_right _ _
  have hcheck : (decide (p.position.lineStart ≤ p.offset) && decide (p.offset ≤ utf8Length source) &&
      decide (p.offset ≤ (p.advance n).offset) && (splitBytes? source p.offset).isSome) = true := by
    rw [hsplit, decide_eq_true hp.line, decide_eq_true hlen, decide_eq_true hback]
    rfl
  rw [cursor_advance hn, reset, bind_of_ok (get_apply _)]
  exact bind_of_ok (check_of_true hcheck _)

theorem noteLineBreak_at : noteLineBreak (p.cursor source b) = some (.ok (), p.cursor source true) :=
  rfl

end Movements

end Checked

/-! ## Reports of recognisers -/

/-- What comes of a recogniser's report on the text at a place: the value or the diagnostic, and the cursor. -/
def Scan.settle {α : Type} (source : List Char) (lineBreak : Bool) (m : Message) (p : Place) :
    Scan α → Option (Except Diagnostic α × Cursor)
  | .read a n => some (.ok a, (p.advance n).cursor source lineBreak)
  | .malformed n => some (.error (.malformed (p.advance n).location m), (p.advance n).cursor source lineBreak)

section Settle

variable {α β : Type} {source : List Char} {b : Bool} {m : Message} {p : Place}

theorem Scan.settle_after {k : Nat} (h : CutsClean p.rest k) (s : Scan α) :
    (s.after k).settle source b m p = s.settle source b m (p.advance k) := by
  cases s <;> simp only [after, settle, Place.advance_add h]

/-- The report of what is read `k` characters further on, with what the characters in front of it add. -/
theorem Scan.settle_next {γ : Type} {k : Nat} (h : CutsClean p.rest k) {f : α → β} {g : α → γ} {g' : γ → β}
    {s : Scan α} (hf : ∀ a n, s = .read a n → g' (g a) = f a) :
    (((s.map g).after k).map g').settle source b m p = (s.map f).settle source b m (p.advance k) := by
  cases s with
  | read a n => simp only [map, after, settle, Place.advance_add h, hf a n rfl]
  | malformed n => simp only [map, after, settle, Place.advance_add h]

namespace Checked

theorem pure_at (a : α) : (pure a : Checked α) (p.cursor source b) = (Scan.read a 0).settle source b m p := by
  rw [Scan.settle, Place.advance_zero]
  rfl

theorem malformed_at (hp : p.Within source) :
    malformed m (p.cursor source b) = (Scan.malformed 0 : Scan α).settle source b m p := by
  rw [malformed, bind_of_ok (location_at hp), Scan.settle, Place.advance_zero]
  rfl

/-- Malformed text some way on. -/
theorem malformed_advance (hp : p.Within source) (n : Nat) :
    malformed m ((p.advance n).cursor source b) = (Scan.malformed n : Scan α).settle source b m p := by
  rw [malformed_at (hp.advance n), Scan.settle, Place.advance_zero]
  rfl

/-- The value that was read is changed, and nothing else. -/
theorem bind_settle {x : Checked α} {k : Cursor} {s : Scan α} (h : x k = s.settle source b m p) (f : α → β) :
    (x >>= fun a => pure (f a)) k = (s.map f).settle source b m p := by
  cases s with
  | read a n => rw [bind_of_ok h]; rfl
  | malformed n => rw [bind_of_error h]; rfl

end Checked

end Settle

end EcmaTokens
