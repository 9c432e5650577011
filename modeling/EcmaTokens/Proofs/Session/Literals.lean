/-
Literals: where they end, and what their tokens carry, told from the text of the source alone.
-/
import EcmaTokens.Proofs.Lexeme.Closing
import EcmaTokens.Proofs.Lexeme.LongestNumeral
import EcmaTokens.Proofs.Session.Run

namespace EcmaTokens

namespace Reading

open Quoted (Item Splits textOf scan_contents skim scan_extent)
open Numeral (Form opensNumeral clings exists_reads)

variable {settings : Settings} {p : Place} {t : Token}

/-! ## Strings -/

/-- A string token is written between two quotes that are alike. The text between them splits in one way into
items, the value of the token is the text of the UTF-16 units of the items between line continuations, and the
token says whether one of the items is an octal escape. -/
theorem string_contents [WideConversion] (h : (ofPlace settings p).result = .ok t) (hk : t.tokenClass = .string) :
    ∃ quote contents items, (quote = '"' ∨ quote = '\'') ∧
      t.text = String.ofList (quote :: (contents ++ [quote])) ∧
      Splits contents items ∧ (∀ items', Splits contents items' → items' = items) ∧
      t.value = String.ofList (textOf items) ∧ (t.isLegacyOctal = true ↔ ∃ code, Item.octal code ∈ items) := by
  generalize hr : ofPlace settings p = r at h
  have ho : Outcome settings p r := hr ▸ outcome settings p
  cases ho with
  | unclosed => cases h
  | malformed => cases h
  | eof => cases h; cases hk
  | @lexeme n m x hg hx =>
    cases h
    obtain ⟨q, rfl⟩ := Lexeme.quoted_of_tokenClass hk
    obtain ⟨quote, cs, hcs, hq, hscan⟩ := Lexeme.quoted_of_scan hx
    rw [hcs] at hscan
    obtain ⟨contents, rest, items, rfl, rfl, hs, hv, hl⟩ := scan_contents hscan
    refine ⟨quote, contents, items, hq, ?_, hs, fun items' hs' => hs.unique hs', hv, hl⟩
    have hlit : p.rest.drop n = (quote :: (contents ++ [quote])) ++ rest := by
      rw [hcs, List.cons_append, List.append_assoc, List.singleton_append]
    show String.ofList ((p.rest.drop n).take (contents.length + 2)) = _
    rw [hlit, List.take_left' (by simp)]

/-- A high unit in front of a pair, a letter without its digits, octal digits that are one too many, and the
halves of a pair on two lines. -/
theorem string_contents_halves :
    ∃ t contents items,
      (ofPlace {} (.start "'\\uD83D\\uD83D\\uDE00\\u12\\477\\uD83D\\\r\n\\uDE00'".toList)).result = .ok t ∧
      t.tokenClass = .string ∧ Splits contents items ∧ t.value = String.ofList (textOf items) ∧
      textOf items = ['\ufffd', Char.ofNat 0x1f600, 'u', '1', '2', '\'', '7', '\ufffd', '\ufffd'] ∧
      ∃ code, Item.octal code ∈ items := by
  have h : ((ofPlace {}
      (.start "'\\uD83D\\uD83D\\uDE00\\u12\\477\\uD83D\\\r\n\\uDE00'".toList)).result.toOption.map
        fun t => (t.tokenClass, t.value.toList, t.isLegacyOctal)) =
      some (.string, ['\ufffd', Char.ofNat 0x1f600, 'u', '1', '2', '\'', '7', '\ufffd', '\ufffd'], true) := by
    decide +kernel
  obtain ⟨t, ht, h⟩ := Option.map_eq_some_iff.1 h
  simp only [Prod.mk.injEq] at h
  obtain ⟨hk, hv, hl⟩ := h
  have ht := ok_of_toOption ht
  obtain ⟨_, contents, items, -, -, hs, -, hval, hoct⟩ := string_contents ht hk
  refine ⟨t, contents, items, ht, hk, hs, hval, ?_, hoct.1 hl⟩
  rw [← hv, hval, String.toList_ofList]

/-- Where a string begins, reading succeeds exactly if the plain scan finds the closing quote, and then stops at
the same place. Otherwise the text is malformed where the plain scan fails. -/
theorem string_extent [WideConversion] {quote : Char} {cs : List Char} (hq : quote = '"' ∨ quote = '\'')
    (hp : p.rest = quote :: cs) (strict lineBreak : Bool) :
    ((∃ t, (ofOrigin strict lineBreak p).result = .ok t) ↔ ∃ n, skim quote cs = .read () n) ∧
    (∀ t, (ofOrigin strict lineBreak p).result = .ok t → t.tokenClass = .string ∧
      ∃ n, skim quote cs = .read () n ∧ (ofOrigin strict lineBreak p).stop = p.advance (1 + n)) ∧
    (∀ d, (ofOrigin strict lineBreak p).result = .error d → d.kind = .illegalLexeme ∧
      ∃ n, skim quote cs = .malformed n ∧ d.index = (p.advance (1 + n)).offset) := by
  have hx := Lexeme.scan_of_quote hq cs
  rw [← hp] at hx
  have he := scan_extent hq cs
  rw [← hp] at he
  generalize hr : ofOrigin strict lineBreak p = r
  cases hs : skim quote cs with
  | read u n =>
    rw [hs] at he
    obtain ⟨x, hscan, -⟩ := Scan.map_eq_read he
    rw [hscan] at hx
    rw [ofOrigin_of_lexeme hx] at hr
    subst hr
    refine ⟨⟨fun _ => ⟨n, rfl⟩, fun _ => ⟨_, rfl⟩⟩, ?_, ?_⟩
    · rintro t ⟨⟩
      exact ⟨rfl, n, rfl, rfl⟩
    · rintro d ⟨⟩
  | malformed n =>
    rw [hs] at he
    have hscan : Quoted.scan p.rest = .malformed (1 + n) := by
      cases hscan : Quoted.scan p.rest with
      | read x m => rw [hscan] at he; cases he
      | malformed m => rw [hscan] at he; cases he; rfl
    rw [hscan] at hx
    rw [ofOrigin_of_malformed (by simp [hp]) hx] at hr
    subst hr
    refine ⟨⟨?_, ?_⟩, ?_, ?_⟩
    · rintro ⟨t, ⟨⟩⟩
    · rintro ⟨m, ⟨⟩⟩
    · rintro t ⟨⟩
    · rintro d ⟨⟩
      exact ⟨rfl, n, rfl, rfl⟩

/-- A high unit looks ahead at an escape without digits, and a line continuation takes two characters; the quote
behind them is still found. -/
theorem string_extent_lookahead :
    ∃ p t, p.rest = "'\\uD83D\\u\\'\\x4\\\r\n'+'".toList ∧ (ofOrigin false false p).result = .ok t ∧
      t.tokenClass = .string ∧ (ofOrigin false false p).stop = p.advance 18 := by
  obtain ⟨hiff, hok, -⟩ :=
    string_extent (p := .start "'\\uD83D\\u\\'\\x4\\\r\n'+'".toList) (.inr rfl) rfl false false
  have hs : skim '\'' "\\uD83D\\u\\'\\x4\\\r\n'+'".toList = .read () 17 := rfl
  obtain ⟨t, ht⟩ := hiff.2 ⟨17, hs⟩
  obtain ⟨hk, n, hn, hstop⟩ := hok t ht
  obtain rfl : n = 17 := by
    have := hn.symm.trans hs
    cases this
    rfl
  exact ⟨_, t, rfl, ht, hk, hstop⟩

/-! ## Numerals -/

/-- Where a numeral begins, reading succeeds exactly if no digit and no word directly follows the longest numeral
in front of the text. Then the token is that numeral, and it is marked as a legacy octal one if it is written as
one. Otherwise the text is malformed. -/
theorem numeral_extent [WideConversion] (h : opensNumeral p.rest = true) (strict lineBreak : Bool) :
    ∃ (form : Form) (text rest : List Char), p.rest = text ++ rest ∧ form.Longest text rest ∧
      ((∃ t, (ofOrigin strict lineBreak p).result = .ok t) ↔ rest.head?.any clings = false) ∧
      (∀ t, (ofOrigin strict lineBreak p).result = .ok t → t.tokenClass = .number ∧ t.text = String.ofList text ∧
        (ofOrigin strict lineBreak p).stop = p.advance text.length ∧
        (t.isLegacyOctal = true ↔ ∃ digits, (Form.legacyOctal digits).Spelled text)) ∧
      (∀ d, (ofOrigin strict lineBreak p).result = .error d → d.kind = .illegalLexeme) := by
  obtain ⟨form, text, rest, hrest, hreads⟩ := exists_reads h
  have hx := Lexeme.scan_of_opensNumeral h
  refine ⟨form, text, rest, hrest, hreads.toLongest, ?_⟩
  generalize hr : ofOrigin strict lineBreak p = r
  cases hc : rest.head?.any clings with
  | false =>
    have hread := hreads.read hc
    rw [← hrest] at hread
    rw [hread] at hx
    rw [ofOrigin_of_lexeme hx] at hr
    subst hr
    refine ⟨⟨fun _ => rfl, fun _ => ⟨_, rfl⟩⟩, ?_, ?_⟩
    · rintro t ⟨⟩
      refine ⟨rfl, ?_, rfl, hreads.spelled.isLegacyOctal_iff⟩
      show String.ofList (p.rest.take text.length) = _
      rw [hrest, List.take_left]
    · rintro d ⟨⟩
  | true =>
    obtain ⟨n, hmal⟩ := hreads.refused hc
    rw [← hrest] at hmal
    rw [hmal] at hx
    have hne : p.rest ≠ [] := by
      intro hnil
      rw [hnil] at h
      cases h
    rw [ofOrigin_of_malformed hne hx] at hr
    subst hr
    refine ⟨⟨?_, nofun⟩, ?_, ?_⟩
    · rintro ⟨t, ⟨⟩⟩
    · rintro t ⟨⟩
    · rintro d ⟨⟩
      rfl

/-- The point behind octal digits does not belong to the numeral. -/
theorem numeral_extent_octal :
    ∃ (form : Form) (text rest : List Char) (t : Token),
      (ofOrigin false false (.start "017.5".toList)).result = .ok t ∧ "017.5".toList = text ++ rest ∧
      form.Longest text rest ∧ t.text = String.ofList text ∧ text = "017".toList ∧
      ∃ digits, (Form.legacyOctal digits).Spelled text := by
  obtain ⟨form, text, rest, hrest, hl, -, hok, -⟩ :=
    numeral_extent (p := .start "017.5".toList) (by decide) false false
  have h : ((ofOrigin false false (.start "017.5".toList)).result.toOption.map fun t => (t.text, t.isLegacyOctal)) =
      some ("017", true) := by decide +kernel
  obtain ⟨t, ht, h⟩ := Option.map_eq_some_iff.1 h
  obtain ⟨htext, ho⟩ := Prod.mk.inj h
  have ht := ok_of_toOption ht
  obtain ⟨-, htext', -, hoct⟩ := hok t ht
  refine ⟨form, text, rest, t, ht, hrest, hl, htext', ?_, hoct.1 ho⟩
  rw [← String.toList_ofList (l := text), ← htext', htext]

end Reading

end EcmaTokens
