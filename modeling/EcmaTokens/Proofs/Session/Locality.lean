/-
Tokens look ahead three bytes at most. Two sources that begin alike have the same tokens as far as
three bytes before the end of what they share: from a place in the shared text the same token is read,
and reading stops at the same place again, so this goes on from token to token.
-/
import EcmaTokens.Proofs.Lexeme.Lookahead
import EcmaTokens.Proofs.Session.Sequence

namespace EcmaTokens

/-! ## One token -/

/-- A token that ends at least three bytes before the end of the remaining text is read whatever comes
behind that text, and reading stops at the same place. -/
theorem Reading.ofPlace_append [WideConversion] {settings : Settings} {p : Place} {x : List Char} {t : Token}
    (h : (ofPlace settings (p.append x)).result = .ok t) (ht : t.isEof = false)
    (hn : t.span.stop + 3 ≤ p.offset + utf8Length p.rest) :
    ∃ q : Place, q.offset + utf8Length q.rest = p.offset + utf8Length p.rest ∧ q.rest.length < p.rest.length ∧
      ∀ y, (ofPlace settings (p.append y)).result = .ok t ∧ (ofPlace settings (p.append y)).stop = q.append y := by
  have o := outcome settings (p.append x)
  generalize ofPlace settings (p.append x) = r at h o
  cases o with
  | unclosed => cases h
  | eof => cases h; cases ht
  | malformed => cases h
  | @lexeme n m l hg hl =>
    cases h
    rw [Place.rest_append] at hg hl
    have hm := (Lexeme.scan_pos hl).1
    -- gap and lexeme end three bytes in front of the end of the remaining text
    have hstop : utf8Length ((p.rest ++ x).take (n + m)) + 3 ≤ utf8Length p.rest := by
      have hs : (((p.append x).advance n).advance m).offset + 3 ≤ p.offset + utf8Length p.rest := hn
      rw [Place.offset_advance, Place.offset_advance, Place.rest_advance, Place.rest_append, Place.offset_append,
        Nat.add_assoc p.offset, ← utf8Length_append, ← List.take_add] at hs
      omega
    obtain ⟨hlen, hfour⟩ := four_le_utf8Length_drop hm hstop
    have hn : n ≤ p.rest.length := by omega
    have hm' : m < (p.rest.drop n).length := by rw [List.length_drop]; omega
    rw [List.drop_append_of_le_length hn] at hl
    have hread : ∀ y, ofPlace settings (p.append y) =
        ⟨.ok (.ofPlace (l.kind settings.strict) (p.advance n) m), (p.advance n).append y,
          ((p.advance n).advance m).append y, hasLineTerminator (p.rest.take n)⟩ := by
      intro y
      have hg' := Gap.scan_append hg (by omega) hfour y
      have hl' := Lexeme.scan_append hl hm' y
      rw [← List.drop_append_of_le_length hn] at hl'
      rw [ofPlace_of_lexeme hg' hl', Place.append_advance hn, Place.append_advance hm'.le,
        Token.ofPlace_append hm'.le, Place.rest_append, List.take_append_of_le_length hn]
    have htoken : Token.ofPlace (l.kind settings.strict) ((p.append x).advance n) m =
        .ofPlace (l.kind settings.strict) (p.advance n) m := by
      rw [Place.append_advance hn, Token.ofPlace_append hm'.le]
    refine ⟨(p.advance n).advance m, ?_, ?_, fun y => ?_⟩
    · rw [Place.offset_add_rest, Place.offset_add_rest]
    · simp only [Place.rest_advance, List.length_drop]
      omega
    · rw [hread y, htoken]
      exact ⟨rfl, rfl⟩

/-! ## All tokens -/

/-- The tokens that are read from a place on, up to the end of the source. -/
inductive Tokens [WideConversion] (settings : Settings) : Place → List Token → Prop
  | eof {p : Place} {t : Token} :
      (Reading.ofPlace settings p).result = .ok t → t.isEof = true → Tokens settings p []
  | cons {p : Place} {t : Token} {ts : List Token} :
      (Reading.ofPlace settings p).result = .ok t → t.isEof = false →
      Tokens settings (Reading.ofPlace settings p).stop ts → Tokens settings p (t :: ts)

namespace Tokens

variable [WideConversion] {settings : Settings} {p : Place} {n : Nat} {ts : List Token}

theorem of_readAll (h : readAll settings p = .ok ts) : Tokens settings p ts := by
  fun_induction readAll settings p generalizing ts with
  | case1 p d hr => cases h
  | case2 p t hr ht => cases h; exact .eof hr ht
  | case3 p t hr ht ih =>
    cases hs : readAll settings (Reading.ofPlace settings p).stop with
    | error d => rw [hs] at h; cases h
    | ok ts' =>
      rw [hs] at h
      cases h
      exact .cons hr (by simpa using ht) (ih hs)

/-- Tokens end behind the place from which they are read. -/
theorem le_stop (h : Tokens settings p ts) : ∀ t ∈ ts, p.offset ≤ t.span.stop := by
  induction h with
  | eof => simp
  | @cons p t ts hr _ _ ih =>
    obtain ⟨hstop, hle⟩ := (Reading.outcome settings p).stop_offset hr
    intro t' ht'
    rcases List.mem_cons.1 ht' with rfl | ht'
    · exact hle
    · exact Nat.le_trans (hstop ▸ hle) (ih t' ht')

/-- If the first token ends too late, all of them do. -/
theorem filter_eq_nil (h : Tokens settings p ts)
    (hn : ∀ t, (Reading.ofPlace settings p).result = .ok t → t.isEof = false → n < t.span.stop + 3) :
    (ts.filter fun t => t.span.stop + 3 ≤ n) = [] := by
  rw [List.filter_eq_nil_iff]
  intro t' ht'
  rw [decide_eq_true_eq]
  cases h with
  | eof => cases ht'
  | @cons _ t ts hr ht hts =>
    have hlate := hn t hr ht
    rcases List.mem_cons.1 ht' with rfl | ht'
    · omega
    · have := hts.le_stop t' ht'
      rw [((Reading.outcome settings p).stop_offset hr).1] at this
      omega

/-- The tokens that end at least three bytes before the end of the remaining text are read whatever comes
behind that text. -/
theorem filter_eq {p : Place} {x y : List Char} {tx ty : List Token} (hx : Tokens settings (p.append x) tx)
    (hy : Tokens settings (p.append y) ty) :
    (tx.filter fun t => t.span.stop + 3 ≤ p.offset + utf8Length p.rest) =
      ty.filter fun t => t.span.stop + 3 ≤ p.offset + utf8Length p.rest := by
  by_cases hfirst : ∃ t, (Reading.ofPlace settings (p.append x)).result = .ok t ∧ t.isEof = false ∧
      t.span.stop + 3 ≤ p.offset + utf8Length p.rest
  · -- the first token is the same, and the induction speaks of those behind it
    obtain ⟨t, ht, hk, hn⟩ := hfirst
    obtain ⟨q, hq, hlen, hread⟩ := Reading.ofPlace_append ht hk hn
    have rest : ∀ {z : List Char} {tz : List Token}, Tokens settings (p.append z) tz →
        ∃ ts, tz = t :: ts ∧ Tokens settings (q.append z) ts := by
      intro z tz hz
      obtain ⟨hr, hs⟩ := hread z
      cases hz with
      | eof hr' hk' =>
        obtain rfl := Except.ok.inj (hr.symm.trans hr')
        rw [hk] at hk'
        cases hk'
      | cons hr' _ hts =>
        obtain rfl := Except.ok.inj (hr.symm.trans hr')
        exact ⟨_, rfl, hs ▸ hts⟩
    obtain ⟨tx', rfl, hx'⟩ := rest hx
    obtain ⟨ty', rfl, hy'⟩ := rest hy
    have ih := filter_eq hx' hy'
    rw [hq] at ih
    rw [List.filter_cons, List.filter_cons, ih]
  · -- a first token of the other text that ends in time would be one of this text, too
    rw [hx.filter_eq_nil, hy.filter_eq_nil]
    · intro t ht hk
      by_contra hn
      obtain ⟨_, -, -, hread⟩ := Reading.ofPlace_append ht hk (Nat.not_lt.1 hn)
      exact hfirst ⟨t, (hread x).1, hk, Nat.not_lt.1 hn⟩
    · intro t ht hk
      by_contra hn
      exact hfirst ⟨t, ht, hk, Nat.not_lt.1 hn⟩
termination_by p.rest.length

end Tokens

/-! ## Locality -/

/-- The sources begin with the same `n` bytes, which are whole characters of both. -/
def AgreeTo (n : Nat) (a b : String) : Prop :=
  ∃ shared, utf8Length shared = n ∧ shared <+: a.toList ∧ shared <+: b.toList

/-- Two sources that begin alike have the same tokens as far as three bytes before the end of what they
share: no token depends on what stands farther behind it. -/
theorem tokens_local [WideConversion] {settings : Settings} {a b : String} {n : Nat} {ta tb : List Token}
    (h : AgreeTo n a b) (ha : tokenize settings a = .ok ta) (hb : tokenize settings b = .ok tb) :
    (ta.filter fun t => t.span.stop + 3 ≤ n) = tb.filter fun t => t.span.stop + 3 ≤ n := by
  obtain ⟨shared, rfl, ⟨x, hx⟩, ⟨y, hy⟩⟩ := h
  rw [tokenize_eq_readAll, ← hx] at ha
  rw [tokenize_eq_readAll, ← hy] at hb
  have h := Tokens.filter_eq (p := .start shared) (.of_readAll ha) (.of_readAll hb)
  rwa [show (Place.start shared).offset = 0 from rfl, Nat.zero_add] at h

/-- Behind five shared bytes one source goes on with a comment to the end of the line, and the other with
operators. -/
theorem tokens_local_comment :
    ∃ ta tb, tokenize {} "a <!-- b" = .ok ta ∧ tokenize {} "a <!-1" = .ok tb ∧
      (ta.filter fun t => t.span.stop + 3 ≤ 5) = tb.filter fun t => t.span.stop + 3 ≤ 5 := by
  have h : (tokenize {} "a <!-- b").toOption.isSome = true ∧ (tokenize {} "a <!-1").toOption.isSome = true := by
    decide +kernel
  obtain ⟨ta, ha⟩ := Option.isSome_iff_exists.1 h.1
  obtain ⟨tb, hb⟩ := Option.isSome_iff_exists.1 h.2
  have ha := ok_of_toOption ha
  have hb := ok_of_toOption hb
  have hshared : AgreeTo 5 "a <!-- b" "a <!-1" :=
    ⟨"a <!-".toList, by decide, ⟨"- b".toList, by decide⟩, ⟨['1'], by decide⟩⟩
  exact ⟨ta, tb, ha, hb, tokens_local hshared ha hb⟩

/-- Two bytes would be too few. These sources have three bytes in common, and a token ends behind the first of
them in one source only. -/
example : ((tokenize {} "<!--").toOption.map fun ts => ts.filter fun t => t.span.stop + 2 ≤ 3) = some [] ∧
    ((tokenize {} "<!-1").toOption.map fun ts => (ts.filter fun t => t.span.stop + 2 ≤ 3).length) = some 1 := by
  decide +kernel

end EcmaTokens
