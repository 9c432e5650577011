/-
Words: where they end, and that escapes in them change nothing. A word token is the longest spelling of a name where
a word begins; it carries that name, and its kind depends on the name alone, however the name is spelled.
-/
import EcmaTokens.Proofs.Lexeme.Spelling
import EcmaTokens.Proofs.Session.Invariant
import EcmaTokens.Proofs.Session.Sequence
import EcmaTokens.Proofs.Token.Mode

namespace EcmaTokens

/-! ## Reading words -/

namespace Lexeme

/-- No punctuator begins with a character that opens a word. -/
theorem not_isOpenedBy_of_opensWord {c : Char} (h : opensWord c = true) : Punctuator.isOpenedBy c = false := by
  rw [Punctuator.isOpenedBy, Bool.and_eq_false_iff]
  right
  unfold Punctuator.ofChar?
  split <;> first | rfl | exact absurd h (by decide)

/-- A word is read where one begins. -/
theorem scan_of_opensWord [WideConversion] {cs : List Char} (h : cs.head?.any opensWord = true) :
    scan cs = (Word.scan cs).map word := by
  cases cs with
  | nil => cases h
  | cons c cs =>
    have hc : opensWord c = true := by simpa using h
    rw [scan, not_isOpenedBy_of_opensWord hc, if_neg (by decide), if_pos hc]

end Lexeme

theorem Gap.item?_of_opensWord {html lineStart : Bool} {cs : List Char} (h : cs.head?.any opensWord = true) :
    item? html lineStart cs = none := by
  cases cs with
  | nil => cases h
  | cons c cs =>
    have hc : opensWord c = true := by simpa using h
    have hmem : c ∉ ['/', '-', '<'] := by
      intro hm
      simp only [List.mem_cons, List.not_mem_nil, or_false] at hm
      rcases hm with rfl | rfl | rfl <;> exact absurd hc (by decide)
    have hblank : isBlank c = false := by
      by_contra hb
      have := (separates_of_isBlank (by simpa using hb)).word
      rw [hc] at this
      cases this
    obtain ⟨hw, hl⟩ := Bool.or_eq_false_iff.1 hblank
    rw [item?_cons hmem, hw, hl]
    rfl

namespace Word

variable {cs : List Char}

/-- Where a word begins, it goes over the longest run, behind which a backslash makes it malformed. -/
theorem exists_longestRun (h : cs.head?.any opensWord = true) :
    ∃ name text rest, cs = text ++ rest ∧ LongestRun name text rest ∧
      ((rest.head? = some '\\' ∧ ¬ BeginsEscape text.isEmpty rest ∧ ∃ n, scan cs = .malformed n) ∨
        (name ≠ [] ∧ rest.head?.any (fun c => c == '\\' || isIdentifierPart c) = false ∧
          scan cs = .read name text.length)) := by
  obtain ⟨c, ds, rfl⟩ : ∃ c ds, cs = c :: ds := by
    cases cs with
    | nil => cases h
    | cons c ds => exact ⟨c, ds, rfl⟩
  have hc : opensWord c = true := by simpa using h
  obtain ⟨name, text, rest, heq, hs, hf, hstop, hread⟩ := scanSpelled_eq true (c :: ds)
  rw [← scan_eq_scanSpelled hc] at hread
  refine ⟨name, text, rest, heq, ⟨hs, hf, fun _ _ hs' hf' hp => hstop.length_le hs hf hs' hf' hp⟩, ?_⟩
  rcases hread with ⟨hb, hn⟩ | ⟨hb, hr⟩
  · exact .inl ⟨hb, hstop.escaped, hn⟩
  · have htext : text ≠ [] := by
      -- otherwise the character that opens the word would stand where the word stops
      rintro rfl
      rw [List.nil_append] at heq
      subst heq
      have hne : c ≠ '\\' := fun hc => hb (by rw [hc]; rfl)
      have := hstop.plain rfl
      rw [List.isEmpty_nil, Bool.and_true, allows, if_pos rfl, isIdentifierStart_of_opensWord hc hne] at this
      cases this
    have hname : name ≠ [] := by
      rintro rfl
      cases hs
      exact htext rfl
    refine .inr ⟨hname, ?_, hr⟩
    cases rest with
    | nil => rfl
    | cons d rest =>
      have hd := hstop.plain rfl
      have hne : d ≠ '\\' := fun hd => hb (by rw [hd]; rfl)
      rw [List.isEmpty_eq_false_iff.2 htext] at hd
      simpa [allows, hne] using hd

end Word

namespace Reading

open Word (Spells LongestRun BeginsEscape IsName unescape)

variable {settings : Settings} {p : Place}

/-- Where a word begins, reading it as one run where it has no escapes makes no difference. It takes the longest
run of identifier characters and escapes of such, and fails exactly if behind that stands a backslash that begins no
escape of an identifier character. Otherwise the name it reads is not empty, and neither an identifier character nor
a backslash follows. -/
theorem word_extent [WideConversion] (h : p.rest.head?.any opensWord = true) (strict lineBreak : Bool) :
    Lexeme.scan p.rest = (Word.scan p.rest).map .word ∧ Word.scan p.rest = Word.scanSpelled true p.rest ∧
    ∃ name text rest, p.rest = text ++ rest ∧ LongestRun name text rest ∧
      ((∃ d, (ofOrigin strict lineBreak p).result = .error d) ↔
        rest.head? = some '\\' ∧ ¬ BeginsEscape text.isEmpty rest) ∧
      (∀ t, (ofOrigin strict lineBreak p).result = .ok t →
        t.kind = .ofWord strict (String.ofList name) ∧ t.text = String.ofList text ∧
        (ofOrigin strict lineBreak p).stop = p.advance text.length ∧ name ≠ [] ∧
        rest.head?.any (fun c => c == '\\' || isIdentifierPart c) = false) := by
  have hx := Lexeme.scan_of_opensWord h
  refine ⟨hx, ?_, ?_⟩
  · cases hp : p.rest with
    | nil => rw [hp] at h; cases h
    | cons c cs => exact Word.scan_eq_scanSpelled (by rw [hp] at h; simpa using h) cs
  obtain ⟨name, text, rest, hrest, hrun, hread⟩ := Word.exists_longestRun h
  refine ⟨name, text, rest, hrest, hrun, ?_⟩
  generalize hr : ofOrigin strict lineBreak p = r
  rcases hread with ⟨hb, he, n, hn⟩ | ⟨hname, hnext, hscan⟩
  · rw [hn] at hx
    have hne : p.rest ≠ [] := by
      intro hnil
      rw [hnil] at h
      cases h
    rw [ofOrigin_of_malformed hne hx] at hr
    subst hr
    exact ⟨⟨fun _ => ⟨hb, he⟩, fun _ => ⟨_, rfl⟩⟩, nofun⟩
  · rw [hscan] at hx
    rw [ofOrigin_of_lexeme hx] at hr
    subst hr
    refine ⟨⟨nofun, ?_⟩, ?_⟩
    · rintro ⟨hb, -⟩
      rw [hb] at hnext
      cases hnext
    · rintro t ⟨⟩
      refine ⟨rfl, ?_, rfl, hname, hnext⟩
      show String.ofList (p.rest.take text.length) = _
      rw [hrest, List.take_left]

/-- The escape of a hyphen is malformed inside a word, and the escape in front of it belongs to the word. -/
theorem word_extent_hyphen :
    ∃ name text rest, "v\\u0061r\\u002d".toList = text ++ rest ∧ LongestRun name text rest ∧
      rest.head? = some '\\' ∧ ¬ BeginsEscape text.isEmpty rest := by
  obtain ⟨-, -, name, text, rest, hrest, hrun, hiff, -⟩ :=
    word_extent (p := .start "v\\u0061r\\u002d".toList) (by decide) false false
  refine ⟨name, text, rest, hrest, hrun, hiff.1 ?_⟩
  have h : (ofOrigin false false (.start "v\\u0061r\\u002d".toList)).result.toOption.isNone = true := by
    decide +kernel
  cases hr : (ofOrigin false false (.start "v\\u0061r\\u002d".toList)).result with
  | error d => exact ⟨d, rfl⟩
  | ok t => rw [hr] at h; cases h

end Reading

/-! ## Words of a session -/

/-- Identifiers, keywords, and the literals that are spelled like them. -/
def TokenClass.isWord : TokenClass → Bool
  | .identifier | .keyword | .null | .boolean => true
  | _ => false

namespace Lexeme

theorem isWord_ofWord (strict : Bool) (w : String) : (Kind.ofWord strict w).tokenClass.isWord = true := by
  rcases Kind.ofWord_cases strict w with ⟨k, h, -⟩ | ⟨h, -⟩ | ⟨b, h, -⟩ | h <;> rw [h] <;> rfl

theorem word_of_tokenClass {strict : Bool} {x : Lexeme} (h : (x.kind strict).tokenClass.isWord = true) :
    ∃ w, x = .word w := by
  cases x with
  | word w => exact ⟨w, rfl⟩
  | numeral => cases h
  | quoted => cases h
  | punctuator => cases h

/-- A word is read where one begins, and nowhere else. -/
theorem word_of_scan [WideConversion] {cs w : List Char} {n : Nat} (h : scan cs = .read (.word w) n) :
    cs.head?.any opensWord = true ∧ Word.scan cs = .read w n := by
  have punctuator : ∀ {cs : List Char}, scanPunctuator cs ≠ .read (.word w) n := by
    intro cs hs
    obtain ⟨p, hp, -⟩ := longest?_of_scanPunctuator hs
    cases hp
  unfold scan at h
  split at h
  · cases h
  · next c cs =>
    split at h
    · exact absurd h punctuator
    · split at h
      · next hc =>
        obtain ⟨_, hs, hx⟩ := Scan.map_eq_read h
        cases hx
        exact ⟨by simpa using hc, hs⟩
      · split at h
        · exact absurd h punctuator
        · split at h
          · obtain ⟨_, -, hx⟩ := Scan.map_eq_read h; cases hx
          · split at h
            · obtain ⟨_, -, hx⟩ := Scan.map_eq_read h; cases hx
            · cases h

end Lexeme

namespace Word

theorem LongestRun.isName {name text rest : List Char} (h : LongestRun name text rest) (hn : name ≠ []) :
    IsName name :=
  (fits_iff_isName hn).1 h.fits

/-- What is read of a word is the name that its text spells. -/
theorem spells_of_scan {cs w : List Char} {n : Nat} (h : cs.head?.any opensWord = true) (hs : scan cs = .read w n) :
    Spells w (cs.take n) ∧ IsName w := by
  obtain ⟨name, text, rest, rfl, hrun, hread⟩ := exists_longestRun h
  rcases hread with ⟨-, -, m, hm⟩ | ⟨hname, -, hr⟩
  · rw [hs] at hm
    cases hm
  · rw [hs] at hr
    cases hr
    rw [List.take_left]
    exact ⟨hrun.spells, hrun.isName hname⟩

end Word

namespace Session

open Word (Spells IsName unescape spells_of_scan scan_of_spells)
open Reading (ofPlace)

/-- Where a spelling of a name stands in front of something that cannot go on with it, one token is read, which
covers the spelling. -/
theorem ofPlace_of_spells [WideConversion] {p : Place} {name text rest : List Char} (hn : IsName name)
    (hs : Spells name text) (hr : rest.head?.any (fun c => c == '\\' || isIdentifierPart c) = false)
    (hp : p.rest = text ++ rest) (settings : Settings) :
    ofPlace settings p =
      ⟨.ok (.ofPlace (.ofWord settings.strict (String.ofList name)) p text.length), p, p.advance text.length,
        false⟩ := by
  obtain ⟨hopens, hscan⟩ := scan_of_spells hs hn hr
  rw [← hp] at hopens hscan
  have hx := Lexeme.scan_of_opensWord hopens
  rw [hscan] at hx
  have hg : Gap.scan settings.htmlComments (p.offset == 0) p.rest = .read () 0 :=
    Gap.scan_of_none (Gap.item?_of_opensWord hopens)
  rw [Reading.ofPlace_of_lexeme hg hx, Place.advance_zero]
  rfl

/-- Escapes never change the meaning of a word. However a name is spelled, in front of something that cannot go on
with it, one token is read that covers the spelling, has the name as its value and is of the kind that the name gets
when it is written without escapes. Conversely the value of every word that a session gives back is its text with
the escapes replaced, and it is a name. -/
theorem words_spelled [WideConversion] :
    (∀ (settings : Settings) (p : Place) (name text rest : List Char), IsName name → Spells name text →
      rest.head?.any (fun c => c == '\\' || isIdentifierPart c) = false → p.rest = text ++ rest →
      ∃ t, ofPlace settings p = ⟨.ok t, p, p.advance text.length, false⟩ ∧
        t.text = String.ofList text ∧ t.span = ⟨p.offset, p.offset + utf8Length text⟩ ∧ t.tokenClass.isWord = true ∧
        t.value = String.ofList name ∧
        ∀ (p' : Place) (rest' : List Char), rest'.head?.any (fun c => c == '\\' || isIdentifierPart c) = false →
          p'.rest = name ++ rest' →
          ∃ t', (ofPlace settings p').result = .ok t' ∧ t'.text = String.ofList name ∧ t'.kind = t.kind) ∧
    ∀ (settings : Settings) (source : String) (s₀ s : Session) (es : List Event),
      start settings source = .ok s₀ → Run s₀ es s → ∀ t, (t = s.pending ∨ ∃ e ∈ es, e.answer = .token t) →
      t.tokenClass.isWord = true → t.value.toList = unescape t.text.toList ∧ IsName t.value.toList := by
  constructor
  · intro settings p name text rest hn hs hr hp
    refine ⟨_, ofPlace_of_spells hn hs hr hp settings, ?_, ?_, Lexeme.isWord_ofWord _ _, Kind.value_ofWord _ _, ?_⟩
    · show String.ofList (p.rest.take text.length) = _
      rw [hp, List.take_left]
    · show (⟨p.offset, (p.advance text.length).offset⟩ : Span) = _
      rw [Place.offset_advance, hp, List.take_left]
    · intro p' rest' hr' hp'
      refine ⟨.ofPlace (.ofWord settings.strict (String.ofList name)) p' name.length,
        by rw [ofPlace_of_spells hn (.self name) hr' hp' settings], ?_, rfl⟩
      show String.ofList (p'.rest.take name.length) = _
      rw [hp', List.take_left]
  · intro settings source s₀ s es h₀ hr t ht hw
    have all := Run.tokens (P := fun t => t.tokenClass.isWord = true →
      t.value.toList = unescape t.text.toList ∧ IsName t.value.toList) ?_ ?_ h₀ hr
    · rcases ht with rfl | ⟨e, he, heq⟩
      · exact all.1 hw
      · exact all.2 e he t heq hw
    · intro settings p r t ho ht hw
      cases ho with
      | unclosed => cases ht
      | eof => cases ht; cases hw
      | @lexeme n m x hg hx =>
        cases ht
        obtain ⟨w, rfl⟩ := Lexeme.word_of_tokenClass hw
        obtain ⟨hopens, hscan⟩ := Lexeme.word_of_scan hx
        obtain ⟨hs, hn⟩ := spells_of_scan hopens hscan
        have hval : (Kind.ofWord settings.strict (String.ofList w)).value.toList = w := by
          rw [Kind.value_ofWord, String.toList_ofList]
        show (Kind.ofWord settings.strict (String.ofList w)).value.toList =
            unescape (String.ofList ((p.rest.drop n).take m)).toList ∧ IsName (Kind.ofWord _ _).value.toList
        rw [hval, String.toList_ofList, hs.unescape_eq ((Word.fits_iff_isName (by rintro rfl; exact hn)).2 hn)]
        exact ⟨rfl, hn⟩
      | malformed => cases ht
    · exact fun s n => nofun

/-- A strict word and a word that ends in a supplementary character, with digits of both cases in their escapes. -/
theorem words_spelled_escapes :
    (∃ t t', ofPlace { strict := true } (.start "l\\u0065\\u0074+".toList) =
        ⟨.ok t, .start "l\\u0065\\u0074+".toList, (Place.start "l\\u0065\\u0074+".toList).advance 13, false⟩ ∧
      t.value = "let" ∧ (ofPlace { strict := true } (.start "let".toList)).result = .ok t' ∧ t'.kind = t.kind) ∧
    ∃ s₀ es s, start {} "\\u006a\\u006A𝒳" = .ok s₀ ∧ Run s₀ es s ∧ es.map Event.call = [.lex] ∧
      ∃ e ∈ es, ∃ t, e.answer = .token t ∧ t.value.toList = unescape t.text.toList ∧ IsName t.value.toList := by
  obtain ⟨hread, hrun⟩ := words_spelled
  constructor
  · obtain ⟨t, ht, -, -, -, hval, hplain⟩ := hread { strict := true } (.start "l\\u0065\\u0074+".toList)
      "let".toList "l\\u0065\\u0074".toList "+".toList
      ⟨by decide +kernel, List.all_eq_true.1 (by decide +kernel)⟩
      (.plain (.escaped rfl (.escaped rfl .nil))) (by decide) rfl
    obtain ⟨t', ht', -, hkind⟩ := hplain (.start "let".toList) [] rfl rfl
    exact ⟨t, t', ht, hval, ht', hkind⟩
  · have h : ((start {} "\\u006a\\u006A𝒳").toOption.bind fun s₀ => (s₀.performAll? [.lex]).map fun r =>
        r.1.any fun e => e.taken?.any fun t => t.tokenClass.isWord) = some true := by decide +kernel
    obtain ⟨s₀, es, s, h₀, hr, hcalls, hany⟩ := exists_run h
    obtain ⟨e, he, hw⟩ := List.any_eq_true.1 hany
    obtain ⟨t, ht, hw⟩ := (Option.any_eq_true _ _).1 hw
    have ha := Event.answer_of_taken? ht
    exact ⟨s₀, es, s, h₀, hr, hcalls, e, he, t, ha, hrun _ _ s₀ s es h₀ hr t (.inr ⟨e, he, ha⟩) hw⟩

end Session

end EcmaTokens
