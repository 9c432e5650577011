/-
Sources joined by a line feed. If the first one has all its tokens, they are the first tokens of the
joined source, and what comes of the second one follows, shifted by the text in front of it.
-/
import EcmaTokens.Proofs.Session.Sequence

namespace EcmaTokens

/-! ## Shifts -/

/-- How far a text moves what follows it: by its bytes and by its lines. -/
structure Shift where
  bytes : Nat
  lines : Nat

def Position.shift (d : Shift) (p : Position) : Position :=
  ⟨p.line + d.lines, p.lineStart + d.bytes, p.offset + d.bytes⟩

def Place.shift (d : Shift) (p : Place) : Place :=
  ⟨p.position.shift d, p.rest⟩

/-- The column is counted from the start of the line and stays. -/
def Location.shift (d : Shift) (loc : Location) : Location :=
  ⟨loc.line + d.lines, loc.column, loc.offset + d.bytes⟩

def Token.shift (d : Shift) (t : Token) : Token :=
  ⟨t.kind, ⟨t.span.start + d.bytes, t.span.stop + d.bytes⟩, t.location.shift d, t.text⟩

def Diagnostic.shift (d : Shift) (e : Diagnostic) : Diagnostic :=
  { e with index := e.index + d.bytes, line := e.line + d.lines }

def Reading.shift (d : Shift) (r : Reading) : Reading :=
  ⟨(r.result.map (Token.shift d)).mapError (Diagnostic.shift d), r.origin.shift d, r.stop.shift d, r.lineBreak⟩

section Shift

variable (d : Shift)

theorem Position.advance_shift (p : Position) (cs : List Char) : (p.shift d).advance cs = (p.advance cs).shift d := by
  fun_induction p.advance cs with
  | case1 p => rfl
  | case2 p cs ih =>
    rw [← ih, advance]
    congr 1
    simp [newLine, shift]
    omega
  | case3 p c cs hn hc ih =>
    rw [← ih, advance, if_pos hc]
    · congr 1
      simp [newLine, shift]
      omega
    · exact hn
  | case4 p c cs hn hc ih =>
    rw [← ih, advance, if_neg hc]
    · congr 1
      simp [along, shift]
      omega
    · exact hn

theorem Place.advance_shift (p : Place) (n : Nat) : (p.shift d).advance n = (p.advance n).shift d := by
  simp only [advance, shift, Position.advance_shift]

theorem Place.finish_shift (p : Place) : (p.shift d).finish = p.finish.shift d := by
  simp only [finish, shift, Position.advance_shift]

theorem Place.location_shift (p : Place) : (p.shift d).location = p.location.shift d := by
  simp only [location, Position.location, shift, Position.shift, Location.shift, Location.mk.injEq, true_and,
    and_true]
  omega

theorem Token.ofPlace_shift (k : Kind) (p : Place) (n : Nat) :
    ofPlace k (p.shift d) n = (ofPlace k p n).shift d := by
  rw [ofPlace, Place.advance_shift, Place.location_shift]
  rfl

theorem Diagnostic.malformed_shift (loc : Location) (m : Message) :
    malformed (loc.shift d) m = (malformed loc m).shift d := by
  simp only [malformed, atLocation, ofTemplate, shift, Location.shift, Diagnostic.mk.injEq, true_and, and_true]
  omega

end Shift

/-! ## Reading at the start of a line -/

namespace Reading

variable [WideConversion]

/-- Reads a token from a place that may be called the start of a line whatever its offset. -/
def ofFront (settings : Settings) (lineStart : Bool) (p : Place) : Reading :=
  match Gap.scan settings.htmlComments lineStart p.rest with
  | .read () n => ofOrigin settings.strict (hasLineTerminator (p.rest.take n)) (p.advance n)
  | .malformed n =>
    ⟨.error (.malformed (p.advance n).location .illegalToken), p.advance n, p.finish, hasLineTerminator p.rest⟩

theorem ofPlace_eq_ofFront (settings : Settings) (p : Place) :
    ofPlace settings p = ofFront settings (p.offset == 0) p :=
  ofPlace_eq settings p

theorem ofOrigin_shift (d : Shift) (strict lineBreak : Bool) (p : Place) :
    ofOrigin strict lineBreak (p.shift d) = (ofOrigin strict lineBreak p).shift d := by
  unfold ofOrigin
  rw [show (p.shift d).rest = p.rest from rfl]
  split
  · rw [Token.ofPlace_shift]; rfl
  · split
    · rw [Token.ofPlace_shift, Place.advance_shift]; rfl
    · dsimp only
      rw [Place.advance_shift, Place.location_shift, Diagnostic.malformed_shift]; rfl

theorem ofFront_shift (d : Shift) (settings : Settings) (lineStart : Bool) (p : Place) :
    ofFront settings lineStart (p.shift d) = (ofFront settings lineStart p).shift d := by
  unfold ofFront
  rw [show (p.shift d).rest = p.rest from rfl]
  split
  · rw [Place.advance_shift, ofOrigin_shift]
  · rw [Place.advance_shift, Place.location_shift, Diagnostic.malformed_shift, Place.finish_shift]; rfl

/-- Behind a token the source has begun. -/
theorem ofOrigin_offset {strict lineBreak : Bool} {p : Place} {t : Token}
    (h : (ofOrigin strict lineBreak p).result = .ok t) (ht : t.isEof = false) :
    0 < (ofOrigin strict lineBreak p).stop.offset := by
  unfold ofOrigin at h ⊢
  split at h
  · cases h; cases ht
  · next he =>
    rw [if_neg he]
    split at h
    · next x n hs =>
      obtain ⟨hn, hlen⟩ := Lexeme.scan_pos hs
      dsimp only
      rw [Place.offset_advance]
      have hne : p.rest.take n ≠ [] := by
        rw [ne_eq, List.take_eq_nil_iff, not_or]
        exact ⟨by omega, List.ne_nil_of_length_pos hlen⟩
      exact Nat.lt_of_lt_of_le (utf8Length_pos hne) (Nat.le_add_left _ _)
    · cases h

theorem ofFront_progress {settings : Settings} {lineStart : Bool} {p : Place} {t : Token}
    (h : (ofFront settings lineStart p).result = .ok t) (ht : t.isEof = false) :
    0 < (ofFront settings lineStart p).stop.offset ∧
      (ofFront settings lineStart p).stop.rest.length < p.rest.length := by
  unfold ofFront at h ⊢
  split at h
  · have := ofOrigin_progress h
    simp only [ht, Place.rest_advance, List.length_drop] at this
    exact ⟨ofOrigin_offset h ht, by simp at this; omega⟩
  · cases h

end Reading

/-! ## All tokens, shifted -/

/-- Tokens, or the diagnostic that is there instead of them, moved together. -/
def shiftAll (d : Shift) (r : Except Diagnostic (List Token)) : Except Diagnostic (List Token) :=
  (r.map (List.map (Token.shift d))).mapError (Diagnostic.shift d)

theorem shiftAll_map_cons (d : Shift) (t : Token) (r : Except Diagnostic (List Token)) :
    shiftAll d (r.map (t :: ·)) = (shiftAll d r).map (t.shift d :: ·) := by
  cases r <;> rfl

section

variable [WideConversion]

theorem readAll_of_pos {p : Place} (hp : 0 < p.offset) (settings : Settings) :
    readAll settings p = (Reading.ofFront settings false p).followed settings := by
  have h0 : (p.offset == 0) = false := by rw [beq_eq_false_iff_ne]; omega
  rw [readAll_eq, Reading.ofPlace_eq_ofFront, h0]

/-- Moving a place moves everything that is read from it, as long as it is or is not the start of a line. -/
theorem Reading.followed_shift (d : Shift) (settings : Settings) (lineStart : Bool) (p : Place) :
    (ofFront settings lineStart (p.shift d)).followed settings =
      shiftAll d ((ofFront settings lineStart p).followed settings) := by
  rw [ofFront_shift]
  cases hr : (ofFront settings lineStart p).result with
  | error e => simp [followed, shift, hr, shiftAll, Except.map, Except.mapError, Except.bind]
  | ok t =>
    have hs : ((ofFront settings lineStart p).shift d).result = .ok (t.shift d) := by
      simp [shift, hr, Except.map, Except.mapError]
    rw [followed, followed, hr, hs]
    cases ht : t.isEof with
    | true =>
      simp only [Except.bind, ht, show (t.shift d).isEof = true from ht, if_true]
      rfl
    | false =>
      obtain ⟨hpos, hdec⟩ := ofFront_progress hr ht
      have ih := followed_shift d settings false (ofFront settings lineStart p).stop
      have hpos' : 0 < ((ofFront settings lineStart p).stop.shift d).offset :=
        Nat.lt_of_lt_of_le hpos (Nat.le_add_right _ _)
      rw [← readAll_of_pos hpos, ← readAll_of_pos hpos'] at ih
      simp only [Except.bind, ht, show (t.shift d).isEof = false from ht, Bool.false_eq_true, if_false]
      rw [shiftAll_map_cons, ← ih]
      rfl
termination_by p.rest.length

/-- Line terminators in the gap play no part in what follows. -/
theorem Reading.followed_ofOrigin (settings : Settings) (lineBreak lineBreak' : Bool) (p : Place) :
    (ofOrigin settings.strict lineBreak p).followed settings =
      (ofOrigin settings.strict lineBreak' p).followed settings := by
  unfold followed ofOrigin
  split
  · rfl
  · cases Lexeme.scan p.rest <;> rfl

end

/-! ## A line feed and another text behind -/

/-- The place with a line feed and another text behind the remaining one. -/
def Place.feed (b : List Char) (p : Place) : Place :=
  ⟨p.position, p.rest ++ '\n' :: b⟩

section Feed

variable {b : List Char} {p : Place}

theorem Place.cutsClean_feed (b : List Char) (p : Place) : CutsClean (p.feed b).rest (p.rest.length + 1) := by
  rintro ⟨hr, -⟩
  rw [show (p.feed b).rest = p.rest ++ '\n' :: b from rfl, List.take_length_add_append] at hr
  simp at hr

theorem Place.feed_advance {n : Nat} (hn : n ≤ p.rest.length) : (p.feed b).advance n = (p.advance n).feed b :=
  append_advance hn _

theorem Token.ofPlace_feed {n : Nat} (hn : n ≤ p.rest.length) (k : Kind) :
    ofPlace k (p.feed b) n = ofPlace k p n :=
  ofPlace_append hn _ k

variable [WideConversion]

/-- A token in front of the line feed is read as if it were not there. -/
theorem Reading.ofPlace_feed {settings : Settings} {t : Token} (h : (ofPlace settings p).result = .ok t)
    (ht : t.isEof = false) :
    (ofPlace settings (p.feed b)).result = .ok t ∧
      (ofPlace settings (p.feed b)).stop = (ofPlace settings p).stop.feed b := by
  have o := outcome settings p
  generalize ofPlace settings p = r at h o
  cases o with
  | unclosed => cases h
  | eof => cases h; cases ht
  | malformed => cases h
  | @lexeme n m x hg hx =>
    cases h
    obtain ⟨hn, hlt, -⟩ := Gap.scan_feed hg b
    have hlen := (Lexeme.scan_pos hx).2
    rw [List.length_drop] at hlen
    obtain ⟨hm, hx'⟩ := Lexeme.scan_feed hx b
    have hg' : Gap.scan settings.htmlComments ((p.feed b).offset == 0) (p.feed b).rest = .read () n :=
      hlt (by omega)
    have hd : (p.feed b).rest.drop n = p.rest.drop n ++ '\n' :: b := List.drop_append_of_le_length hn
    rw [ofPlace_of_lexeme hg' (by rw [hd]; exact hx'), Place.feed_advance hn, Token.ofPlace_feed hm,
      Place.feed_advance hm]
    exact ⟨rfl, rfl⟩

/-- At the end of a text reading goes on behind the line feed, at the start of a line. -/
theorem Reading.followed_feed {settings : Settings} {t : Token} (h : (ofPlace settings p).result = .ok t)
    (ht : t.isEof = true) :
    (ofPlace settings (p.feed b)).followed settings =
      (ofFront settings true ((p.feed b).advance (p.rest.length + 1))).followed settings := by
  have o := outcome settings p
  generalize ofPlace settings p = r at h o
  cases o with
  | unclosed => cases h
  | malformed => cases h
  | @lexeme n m x hg hx =>
    cases h
    exact absurd (ht.symm.trans (kind_not_eof settings.strict x)) (by simp)
  | @eof n hg hr =>
    -- the gap reached the end of the text, so now it takes the line feed and goes on
    obtain ⟨hn, -, hend⟩ := Gap.scan_feed hg b
    have hlen : n = p.rest.length := by
      have := congrArg List.length hr
      rw [List.length_drop, List.length_nil] at this
      omega
    have hg' : Gap.scan settings.htmlComments ((p.feed b).offset == 0) (p.feed b).rest =
        (Gap.scan settings.htmlComments true b).after (p.rest.length + 1) := hend hlen
    have hrest : (p.feed b).rest.drop (p.rest.length + 1) = b := by
      show (p.rest ++ '\n' :: b).drop _ = b
      rw [List.drop_length_add_append]
      rfl
    rw [ofPlace_eq_ofFront, ofFront, ofFront, hg', Place.rest_advance, hrest]
    cases Gap.scan settings.htmlComments true b with
    | read u k =>
      show (ofOrigin _ _ ((p.feed b).advance (p.rest.length + 1 + k))).followed settings = _
      rw [Place.advance_add (Place.cutsClean_feed b p)]
      exact followed_ofOrigin ..
    | malformed k =>
      simp only [Scan.after, Place.advance_add (Place.cutsClean_feed b p), followed, Except.bind]

end Feed

/-! ## Joined sources -/

/-- What a text in front of a source moves it by. -/
def Shift.behind (cs : List Char) : Shift :=
  ⟨utf8Length cs, lineCount cs⟩

/-- Behind a text that ends in a line feed the source begins anew. -/
theorem Place.Behind.eq_shift {source a b : List Char} {p : Place} (h : p.Behind source (a ++ ['\n']))
    (hr : p.rest = b) : p = (Place.start b).shift (.behind (a ++ ['\n'])) := by
  have hc : closedLines (a ++ ['\n']) = a ++ ['\n'] := by
    rw [closedLines, List.rdropWhile_concat_neg]
    decide
  rcases p with ⟨position, rest⟩
  obtain rfl : rest = b := hr
  have hpos : position = .behind (a ++ ['\n']) := h.position
  rw [hpos, Position.behind, hc]
  simp [Place.shift, Place.start, Position.shift, Shift.behind]

/-- All tokens of a text in front of a line feed are read first, and then what follows it. -/
theorem readAll_feed [WideConversion] {settings : Settings} {a b before : List Char} {p : Place} {ta : List Token}
    (h : readAll settings p = .ok ta) (hp : (p.feed b).Behind (a ++ '\n' :: b) before) :
    readAll settings (p.feed b) =
      (shiftAll (.behind (a ++ ['\n'])) (readAll settings (.start b))).map (ta ++ ·) := by
  fun_induction readAll settings p generalizing ta before with
  | case1 p e hr => cases h
  | case2 p t hr ht =>
    cases h
    -- reading goes on behind the line feed, where the joined source looks like the start of `b`
    have hcut := Place.cutsClean_feed b p
    have htake : (p.feed b).rest.take (p.rest.length + 1) = p.rest ++ ['\n'] := List.take_length_add_append ..
    have ha : a = before ++ p.rest := by
      have : a ++ '\n' :: b = before ++ p.rest ++ '\n' :: b := by
        rw [List.append_assoc]; exact hp.eq_append
      exact List.append_cancel_right this
    have hq := hp.advance hcut
    rw [htake, ← List.append_assoc, ← ha] at hq
    have hrest : ((p.feed b).advance (p.rest.length + 1)).rest = b := List.drop_length_add_append ..
    have map_nil : ∀ r : Except Diagnostic (List Token), r = r.map ([] ++ ·) := by
      intro r; cases r <;> rfl
    rw [readAll_eq, Reading.followed_feed hr ht, hq.eq_shift hrest, Reading.followed_shift, readAll_eq,
      Reading.ofPlace_eq_ofFront]
    exact map_nil _
  | case3 p t hr ht ih =>
    cases hs : readAll settings (Reading.ofPlace settings p).stop with
    | error e => rw [hs] at h; cases h
    | ok ts =>
      rw [hs] at h
      obtain rfl : t :: ts = ta := Except.ok.inj h
      have ht : t.isEof = false := by simpa using ht
      -- the same token is read, and the place behind it is again one in front of the line feed
      obtain ⟨hres, hstop⟩ := Reading.ofPlace_feed (b := b) hr ht
      obtain ⟨b₁, -, b₂, hp'⟩ := (Reading.outcome settings (p.feed b)).behind hp
      rw [hstop] at hp'
      rw [readAll_eq, Reading.followed, hres, hstop, ih hs hp']
      simp only [Except.bind, ht, Bool.false_eq_true, if_false]
      cases shiftAll (.behind (a ++ ['\n'])) (readAll settings (.start b)) <;> rfl

/-- If a source has tokens, they are the first ones of that source, a line feed and another source, and
what comes of the other one follows, moved over the text in front of it. -/
theorem tokenize_append_line [WideConversion] {settings : Settings} {a : String} {ta : List Token}
    (ha : tokenize settings a = .ok ta) (b : String) :
    tokenize settings (a ++ "\n" ++ b) =
      match tokenize settings b with
      | .ok tb => .ok (ta ++ tb.map (Token.shift (.behind (a ++ "\n").toList)))
      | .error e => .error (e.shift (.behind (a ++ "\n").toList)) := by
  rw [tokenize_eq_readAll] at ha
  have hs : (a ++ "\n" ++ b).toList = a.toList ++ '\n' :: b.toList := by simp
  have hp : ((Place.start a.toList).feed b.toList).Behind (a.toList ++ '\n' :: b.toList) [] := .start _
  have ht : (a ++ "\n").toList = a.toList ++ ['\n'] := by simp
  have h := readAll_feed ha hp
  rw [tokenize_eq_readAll, tokenize_eq_readAll, hs, ht]
  refine Eq.trans h ?_
  cases readAll settings (.start b.toList) <;> rfl

/-- A comment and a carriage return in front of the line feed, and an arrow behind it. -/
theorem tokenize_append_line_return :
    ∃ ta, tokenize {} "x // y\r" = .ok ta ∧ ta.length = 1 ∧
      tokenize {} ("x // y\r" ++ "\n" ++ "--> z\n'") =
        match tokenize {} "--> z\n'" with
        | .ok tb => .ok (ta ++ tb.map (Token.shift (.behind ("x // y\r" ++ "\n").toList)))
        | .error e => .error (e.shift (.behind ("x // y\r" ++ "\n").toList)) := by
  have h : (tokenize {} "x // y\r").toOption.map List.length = some 1 := by decide +kernel
  obtain ⟨ta, ha, hlen⟩ := Option.map_eq_some_iff.1 h
  have ha := ok_of_toOption ha
  exact ⟨ta, ha, hlen, tokenize_append_line ha "--> z\n'"⟩

end EcmaTokens
