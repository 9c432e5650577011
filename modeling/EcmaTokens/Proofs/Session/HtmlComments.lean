/-
Comments of the forms `<!--` and `-->` concern only the sources in which one of them is written. In any
other source no gap contains one, whatever stands at the start of a line; so a session that allows them and
one that does not answer every call alike, and are the same but for that setting.
-/
import EcmaTokens.Proofs.Lexeme.Skip
import EcmaTokens.Proofs.Session.Invariant

namespace EcmaTokens

/-- Neither `<!--` nor `-->` is written in the text. -/
structure HtmlFree (cs : List Char) : Prop where
  opening : ¬ "<!--".toList <:+: cs
  closing : ¬ "-->".toList <:+: cs

theorem HtmlFree.of_suffix {cs ds : List Char} (h : HtmlFree cs) (hs : ds <:+ cs) : HtmlFree ds :=
  ⟨fun hi => h.opening (hi.trans hs.isInfix), fun hi => h.closing (hi.trans hs.isInfix)⟩

/-! ## Gaps -/

namespace Gap

variable {cs : List Char} (html html' : Bool)

/-- An item is the same whether or not such comments are allowed, and wherever it stands on its line. -/
theorem item?_of_htmlFree (h : HtmlFree cs) (lineStart lineStart' : Bool) :
    item? html lineStart cs = item? html' lineStart' cs := by
  unfold item?
  split
  · rfl
  · rfl
  · exact absurd ⟨[], _, rfl⟩ h.closing
  · exact absurd ⟨[], _, rfl⟩ h.opening
  · rfl
  · rfl

theorem scan_of_htmlFree (h : HtmlFree cs) (lineStart lineStart' : Bool) :
    scan html lineStart cs = scan html' lineStart' cs := by
  fun_induction scan html lineStart cs generalizing lineStart' with
  | case1 lineStart cs hi =>
    rw [item?_of_htmlFree html html' h lineStart lineStart'] at hi
    exact (scan_of_none hi).symm
  | case2 lineStart cs hi =>
    rw [item?_of_htmlFree html html' h lineStart lineStart'] at hi
    exact (scan_of_unclosed hi).symm
  | case3 lineStart cs n hi ih =>
    rw [item?_of_htmlFree html html' h lineStart lineStart'] at hi
    rw [scan_of_closed hi, ih (h.of_suffix (List.drop_suffix n cs))]

end Gap

/-! ## Reading -/

/-- What is read does not depend on such comments being allowed. -/
theorem Reading.ofPlace_of_htmlFree [WideConversion] {p : Place} (h : HtmlFree p.rest) (settings : Settings)
    (html : Bool) : ofPlace { settings with htmlComments := html } p = ofPlace settings p := by
  rw [ofPlace_eq, ofPlace_eq, Gap.scan_of_htmlFree html settings.htmlComments h (p.offset == 0) (p.offset == 0)]

/-! ## Sessions -/

namespace Session

/-- The session with such comments allowed or not. -/
def withHtml (html : Bool) (s : Session) : Session :=
  { s with settings := { s.settings with htmlComments := html } }

variable {s : Session}

theorem lex_withHtml [WideConversion] (h : HtmlFree s.place.rest) (html : Bool) :
    (s.withHtml html).lex = (s.lex.1, s.lex.2.withHtml html) := by
  have ha : (s.withHtml html).atEnd? = s.atEnd? := rfl
  have hr : (s.withHtml html).reading = s.reading := Reading.ofPlace_of_htmlFree h s.settings html
  cases hl : s.atEnd? with
  | some t => rw [lex_of_atEnd hl, lex_of_atEnd (ha.trans hl)]
  | none =>
    cases hres : s.reading.result with
    | error d =>
      rw [lex_of_error hl hres, lex_of_error (ha.trans hl) (by rw [hr]; exact hres), stuck, hr]
      rfl
    | ok t =>
      rw [lex_of_ok hl hres, lex_of_ok (ha.trans hl) (by rw [hr]; exact hres), handOut, hr]
      rfl

theorem rescan_withHtml (s : Session) (html : Bool) :
    (s.withHtml html).rescanRegExp? = s.rescanRegExp?.map fun r => (r.1, r.2.withHtml html) := by
  have hp : (s.withHtml html).place = s.place := rfl
  have ho : (s.withHtml html).origin = s.origin := rfl
  have ht : (s.withHtml html).pending = s.pending := rfl
  simp only [rescanRegExp?, hp, ho, ht]
  split
  · rfl
  · split
    · rfl
    · cases RegularExpression.scan s.origin.rest <;> rfl

section

variable [WideConversion]

/-- Every call is answered alike, and does the same. -/
theorem perform?_withHtml (h : HtmlFree s.place.rest) (html : Bool) (c : Call) :
    (s.withHtml html).perform? c = (s.perform? c).map fun r => (r.1, r.2.withHtml html) := by
  have asks : s.Asks c →
      (s.withHtml html).perform? c = (s.perform? c).map fun r => (r.1, r.2.withHtml html) := by
    intro hc
    have hc' : (s.withHtml html).Asks c := hc
    rw [perform?_of_asks hc, perform?_of_asks hc', lex_withHtml h]
    rfl
  cases c with
  | lex => exact asks (.inl rfl)
  | next =>
    cases hf : s.finished with
    | true =>
      have hf' : (s.withHtml html).finished = true := hf
      rw [perform?, perform?, next_of_finished hf, next_of_finished hf']
      rfl
    | false => exact asks (.inr ⟨rfl, hf⟩)
  | rescan =>
    rw [perform?, perform?, rescan_withHtml, Option.map_map, Option.map_map]
    rfl
  | setStrict => rfl

/-- So is every sequence of calls. -/
theorem performAll?_withHtml {source : List Char} (h : HtmlFree source) (hs : s.Sound source) (html : Bool)
    (cs : List Call) :
    (s.withHtml html).performAll? cs = (s.performAll? cs).map fun r => (r.1, r.2.withHtml html) := by
  induction cs generalizing s with
  | nil => rfl
  | cons c cs ih =>
    obtain ⟨before, b, -, hp⟩ := hs.cursor
    rw [performAll?, performAll?, perform?_withHtml (h.of_suffix ⟨_, hp.eq_append.symm⟩)]
    cases hc : s.perform? c with
    | none => rfl
    | some r =>
      obtain ⟨a, s'⟩ := r
      simp only [Option.map_some, Option.bind_eq_bind, Option.bind_some, ih (hs.effect (Session.effect hc))]
      cases s'.performAll? cs <;> rfl

theorem start_withHtml {source : String} (h : HtmlFree source.toList) (settings : Settings) (html : Bool) :
    start { settings with htmlComments := html } source = (start settings source).map (withHtml html) := by
  have hr : Reading.ofPlace { settings with htmlComments := html } (.start source.toList) =
      Reading.ofPlace settings (.start source.toList) := Reading.ofPlace_of_htmlFree h settings html
  rw [start, start, hr]
  cases (Reading.ofPlace settings (.start source.toList)).result <;> rfl

end

/-! ## Noninterference -/

/-- In a source in which neither `<!--` nor `-->` is written, a session that allows comments of these forms
and one that does not are indistinguishable: both start with the same failure, or both start; and whatever
calls are made on them, continued after failures, each call gives back the same in both or is undefined in
both, and behind all of them the sessions are the same but for the setting. -/
theorem htmlComments_noninterference [WideConversion] {source : String} (ho : ¬ "<!--".toList <:+: source.toList)
    (hc : ¬ "-->".toList <:+: source.toList) (strict : Bool) :
    (∀ d, start ⟨strict, true⟩ source = .error d ↔ start ⟨strict, false⟩ source = .error d) ∧
    ∀ s₀ s₀', start ⟨strict, true⟩ source = .ok s₀ → start ⟨strict, false⟩ source = .ok s₀' →
      ∀ cs, s₀'.performAll? cs = (s₀.performAll? cs).map fun r => (r.1, r.2.withHtml false) := by
  have h : HtmlFree source.toList := ⟨ho, hc⟩
  have hstart : start ⟨strict, false⟩ source = (start ⟨strict, true⟩ source).map (withHtml false) :=
    start_withHtml h ⟨strict, true⟩ false
  constructor
  · intro d
    rw [hstart]
    cases start ⟨strict, true⟩ source <;> simp [Except.map]
  · intro s₀ s₀' h₀ h₀' cs
    rw [hstart, h₀] at h₀'
    obtain rfl : s₀.withHtml false = s₀' := Except.ok.inj h₀'
    exact performAll?_withHtml h (.start h₀) false cs

/-- Near misses of both forms, with a regular expression that its line cuts off and an unclosed string between
them: both failures are the same in both sessions. -/
theorem htmlComments_noninterference_nearMisses :
    ∃ s₀ s₀' es s, start ⟨true, true⟩ "<! --\n/a\n- ->'\n-- >" = .ok s₀ ∧
      start ⟨true, false⟩ "<! --\n/a\n- ->'\n-- >" = .ok s₀' ∧
      s₀.performAll? [.next, .lex, .setStrict false, .lex, .rescan, .lex, .lex, .lex, .lex] = some (es, s) ∧
      (es.map fun e => e.answer.isFailure) = [false, false, false, false, true, false, false, false, true] ∧
      s₀'.performAll? [.next, .lex, .setStrict false, .lex, .rescan, .lex, .lex, .lex, .lex] =
        some (es, s.withHtml false) := by
  have h : ((start ⟨true, true⟩ "<! --\n/a\n- ->'\n-- >").toOption.bind fun s₀ =>
      (start ⟨true, false⟩ "<! --\n/a\n- ->'\n-- >").toOption.bind fun _ =>
        (s₀.performAll? [.next, .lex, .setStrict false, .lex, .rescan, .lex, .lex, .lex, .lex]).map fun r =>
          r.1.map fun e => e.answer.isFailure) =
      some [false, false, false, false, true, false, false, false, true] := by decide +kernel
  obtain ⟨s₀, h₀, h⟩ := Option.bind_eq_some_iff.1 h
  obtain ⟨s₀', h₀', h⟩ := Option.bind_eq_some_iff.1 h
  obtain ⟨⟨es, s⟩, hr, hf⟩ := Option.map_eq_some_iff.1 h
  have h₀ := ok_of_toOption h₀
  have h₀' := ok_of_toOption h₀'
  have hsame := (htmlComments_noninterference (by decide +kernel) (by decide +kernel) true).2 s₀ s₀' h₀ h₀'
    [.next, .lex, .setStrict false, .lex, .rescan, .lex, .lex, .lex, .lex]
  rw [hr] at hsame
  exact ⟨s₀, s₀', es, s, h₀, h₀', hr, hf, hsame⟩

end Session

end EcmaTokens
