/-
The mark of a line break is exact. As long as every token could be read, it says whether a line
terminator stands between the token handed out last and the pending one: inside a comment or not,
and none that a string goes over. Reading a slash again, even in vain, leaves it as it is, for what
is skipped in doing so lies on one line.
-/
import EcmaTokens.Proofs.Session.Coherence
import EcmaTokens.Proofs.Session.Tiling

namespace EcmaTokens

/-! ## Gaps in front of tokens -/

/-- A token that is read parts the text: a gap in front of it, and its own text. -/
theorem Reading.Outcome.parts [WideConversion] {settings : Settings} {p : Place} {r : Reading} {t : Token}
    {source covered : List Char} (h : Outcome settings p r) (ht : r.result = .ok t)
    (hp : p.Behind source covered) :
    ∃ gap text, r.origin.Behind source (covered ++ gap) ∧ r.stop.Behind source (covered ++ gap ++ text) ∧
      r.lineBreak = hasLineTerminator gap ∧ t.span.stop = utf8Length (covered ++ gap ++ text) ∧
      (t.kind.isSlash = true → text = ['/'] ∨ text = ['/', '=']) := by
  cases h with
  | unclosed => cases ht
  | eof hg hr =>
    cases ht
    have ho := hp.advance (Gap.cutsClean_of_scan hg)
    refine ⟨_, [], ho, by rwa [List.append_nil], rfl, ?_, (nomatch ·)⟩
    rw [List.append_nil]
    exact (ho.advance (CutsClean.zero _)).offset_eq.trans (by simp)
  | lexeme hg hx =>
    cases ht
    have ho := hp.advance (Gap.cutsClean_of_scan hg)
    have hs := ho.advance (Lexeme.cutsClean_of_scan hx)
    exact ⟨_, _, ho, hs, rfl, hs.offset_eq, Lexeme.spelling_of_slash hx⟩
  | malformed => cases ht

namespace Session

/-- Where the token ends that was handed out last, or the beginning of the source. -/
def handedTo (s : Session) : Nat :=
  (s.last.map fun t => t.span.stop).getD 0

/-- The text up to the cursor has four parts: what was handed out, what stands in front of the pending
token, the pending token, and what reading a slash again in vain has skipped behind it. The mark
belongs to the second, and there is no line terminator in the last. -/
structure Parted (source : List Char) (s : Session) : Prop where
  sound : s.Sound source
  parts : ∃ before between text skipped,
    s.origin.Behind source (before ++ between) ∧
    s.place.Behind source (before ++ between ++ text ++ skipped) ∧
    utf8Length before = s.handedTo ∧ utf8Length (before ++ between ++ text) = s.pending.span.stop ∧
    s.lineBreak = hasLineTerminator between ∧ hasLineTerminator skipped = false ∧
    (s.pending.kind.isSlash = true → text = ['/'] ∨ text = ['/', '='])
  atEnd : s.atEnd?.isSome = true → s.lineBreak = false

namespace Parted

variable {source : List Char} {s s' : Session}

theorem start [WideConversion] {settings : Settings} {source : String} (h : Session.start settings source = .ok s) :
    s.Parted source.toList := by
  have hs := Sound.start h
  obtain ⟨t, ht, rfl⟩ := start_ok h
  have o : (firstReading settings source).Outcome settings (.start source.toList) := Reading.outcome _ _
  obtain ⟨gap, text, ho, hp, hl, hstop, hslash⟩ := o.parts ht (.start source.toList)
  exact ⟨hs, ⟨[], gap, text, [], ho, by rwa [List.append_nil], rfl, hstop.symm, hl, rfl, hslash⟩, (nomatch ·)⟩

theorem handOut [WideConversion] (h : s.Parted source) {t : Token} (ht : s.reading.result = .ok t) :
    (s.handOut t).Parted source := by
  obtain ⟨before, between, text, skipped, -, hp, -, hstop, -, hskip, -⟩ := h.parts
  obtain ⟨gap, text', ho, hp', hl, hstop', hslash⟩ := s.outcome.parts ht hp
  refine ⟨h.sound.handOut ht, ⟨before ++ between ++ text, skipped ++ gap, text', [], ?_, ?_, hstop, ?_, ?_, rfl,
    hslash⟩, ?_⟩
  · rwa [← List.append_assoc]
  · rw [List.append_nil, ← List.append_assoc]; exact hp'
  · rw [← List.append_assoc]; exact hstop'.symm
  · rw [hasLineTerminator_append, hskip, Bool.false_or]; exact hl
  · -- nothing is left behind the end of the source
    intro hk
    obtain ⟨t', ht'⟩ := Option.isSome_iff_exists.1 hk
    obtain ⟨heq, hk⟩ := Option.filter_eq_some_iff.1 ht'
    cases heq
    have hnil := hp.eq_append.symm.trans ho.eq_append
    rw [h.sound.eof hk, List.append_assoc _ gap, List.append_cancel_left_eq] at hnil
    obtain ⟨rfl, -⟩ := List.append_eq_nil_iff.1 hnil.symm
    exact hl

theorem rescanned (h : s.Parted source) {r : Except Diagnostic Token} (hr : s.Rescanned r s') :
    s'.Parted source := by
  have hs := h.sound.rescanned hr
  cases hr with
  | unexpected => exact h
  | @unterminated n hk _ hn =>
    obtain ⟨before, between, text, skipped, ho, hp, hto, hstop, hl, -, hslash⟩ := h.parts
    have hfree := h.sound.lineFree_rescan hk hn
    have hrest : s.origin.rest = text ++ (skipped ++ s.place.rest) := by
      have := ho.eq_append.symm.trans hp.eq_append
      simpa [List.append_assoc] using this
    -- the literal goes at least over the pending token
    have hle : text.length ≤ n := by
      rw [hrest] at hn
      exact RegularExpression.length_le_of_malformed (hslash hk) hn
    have htake : s.origin.rest.take n = text ++ (skipped ++ s.place.rest).take (n - text.length) := by
      rw [hrest, List.take_append, List.take_of_length_le hle]
    refine ⟨hs, ⟨before, between, text, (skipped ++ s.place.rest).take (n - text.length), ho, ?_, hto, hstop, hl,
      ?_, hslash⟩, h.atEnd⟩
    · rw [List.append_assoc _ text, ← htake]
      exact ho.advance (.of_lineFree hfree)
    · rw [show (Scan.malformed n : Scan Unit).width = n from rfl, htake, hasLineTerminator_append] at hfree
      exact (Bool.or_eq_false_iff.1 hfree).2
  | @literal n hk _ hn =>
    obtain ⟨before, between, -, -, ho, -, hto, -, hl, -⟩ := h.parts
    have hp := ho.advance (.of_lineFree (h.sound.lineFree_rescan hk hn))
    exact ⟨hs, ⟨before, between, _, [], ho, by rw [List.append_nil]; exact hp, hto, hp.offset_eq.symm, hl, rfl,
      (nomatch ·)⟩, h.atEnd⟩

/-- As long as every token can be read, each call keeps the text parted. -/
theorem effect [WideConversion] (h : s.Parted source) {e : Event} (he : s.Effect e s')
    (hf : e.call ≠ .rescan → e.answer.isFailure = false) : s'.Parted source := by
  cases he with
  | setStrict strict => exact ⟨h.sound.effect (.setStrict strict), h.parts, h.atEnd⟩
  | exhausted => exact h
  | @lexed c r s₁ hc hr =>
    have hs₁ : s₁.Parted source := by
      cases hr with
      | atEnd => exact h
      | stuck =>
        have hne : c ≠ .rescan := by rcases hc with rfl | ⟨rfl, -⟩ <;> exact Call.noConfusion
        cases hf hne
      | handOut _ ht => exact h.handOut ht
    exact ⟨h.sound.effect (.lexed hc hr), hs₁.parts, hs₁.atEnd⟩
  | rescanned hr => exact h.rescanned hr

theorem run [WideConversion] {settings : Settings} {source : String} {s₀ : Session} {es : List Event}
    (h₀ : Session.start settings source = .ok s₀) (hr : Run s₀ es s)
    (hf : ∀ e ∈ es, e.call ≠ .rescan → e.answer.isFailure = false) : s.Parted source.toList := by
  refine hr.keeps (fun es s => (∀ e ∈ es, e.call ≠ .rescan → e.answer.isFailure = false) → s.Parted source.toList)
    (fun _ => start h₀) ?_ hf
  intro es s e s' ih he hf
  exact (ih fun e' he' => hf e' (List.mem_append_left _ he')).effect he (hf e (by simp))

end Parted

section Run

variable [WideConversion] {settings : Settings} {source : String} {s₀ s : Session} {es : List Event}

/-- As long as every token can be read, a slash stays within reach. -/
theorem exists_rescan (h₀ : start settings source = .ok s₀) (hr : Run s₀ es s)
    (hf : ∀ e ∈ es, e.call ≠ .rescan → e.answer.isFailure = false) : ∃ r s', s.rescanRegExp? = some (r, s') := by
  cases hn : s.rescanRegExp? with
  | some r => exact ⟨r.1, r.2, rfl⟩
  | none =>
    obtain ⟨e, he, hfail⟩ := (Option.any_eq_true _ _).1 ((Coherent.run h₀ hr).failed_of_rescan_none hn)
    obtain ⟨he, hreads⟩ := List.mem_filter.1 (List.mem_of_getLast? he)
    have hc : e.call ≠ .rescan := by
      intro hc
      simp [Event.reads, hc] at hreads
    rw [hf e he hc] at hfail
    cases hfail

/-- Before the end of the source is handed out, the token handed out last is the one taken last. -/
theorem last_eq (h₀ : start settings source = .ok s₀) (hr : Run s₀ es s) (ha : s.atEnd? = none) :
    s.last = (es.filterMap Event.taken?).getLast? := by
  refine hr.keeps (fun es s => s.atEnd? = none → s.last = (es.filterMap Event.taken?).getLast?) (fun _ => ?_) ?_ ha
  · obtain ⟨t, -, rfl⟩ := start_ok h₀
    rfl
  · intro es s e s' ih he ha
    rw [List.filterMap_append, List.getLast?_append]
    cases he with
    | setStrict => exact ih ha
    | exhausted => exact ih ha
    | @lexed c r s₁ hc hr =>
      cases hr with
      | atEnd hk =>
        rw [show s.atEnd? = none from ha] at hk
        cases hk
      | stuck =>
        simp only [List.filterMap_cons, List.filterMap_nil, taken?_of_error hc]
        exact ih ha
      | @handOut t _ _ =>
        -- what was handed out is not the end of the source, so it was taken
        have hk : s.pending.isEof = false := by
          by_contra hk
          have : (some s.pending).filter Token.isEof = none := ha
          simp [Option.filter_some, hk] at this
        rw [List.filterMap_cons, taken?_deliver hc, if_neg (by simp [hk])]
        rfl
    | @rescanned r _ hr =>
      have ht : Event.taken? ⟨.rescan, .ofResult r⟩ = none := rfl
      simp only [List.filterMap_cons, List.filterMap_nil, ht]
      cases hr with
      | unexpected => exact ih ha
      | unterminated => exact ih ha
      | literal => exact ih ha

end Run

/-! ## Line breaks -/

/-- The mark of a line break is exact in every run in which all the tokens that were asked for could be
read, whatever came of slashes read again: it says whether a line terminator stands between the token
handed out last, or the beginning of the source, and the pending token. Once the end of the source has
been handed out there is none. Reading a slash again leaves the mark as it is. -/
theorem lineBreak_exact [WideConversion] {settings : Settings} {source : String} {s₀ s : Session} {es : List Event}
    (h₀ : start settings source = .ok s₀) (hr : Run s₀ es s)
    (hf : ∀ e ∈ es, e.call ≠ .rescan → e.answer.isFailure = false) :
    (∃ between, Span.Covers source.toList ⟨s.handedTo, s.pending.span.start⟩ between ∧
      s.lineBreak = hasLineTerminator between) ∧
    (s.atEnd? = none → s.last = (es.filterMap Event.taken?).getLast?) ∧
    (s.atEnd?.isSome = true → s.lineBreak = false) ∧
    (∃ r s', s.rescanRegExp? = some (r, s') ∧ s'.lineBreak = s.lineBreak) := by
  have h := Parted.run h₀ hr hf
  refine ⟨?_, last_eq h₀ hr, h.atEnd, ?_⟩
  · obtain ⟨before, between, -, -, ho, -, hto, -, hl, -⟩ := h.parts
    obtain ⟨n, hn⟩ := h.sound.pending
    have hstart : s.pending.span.start = s.origin.offset := by rw [hn]; rfl
    refine ⟨between, ⟨before, s.origin.rest, ho.eq_append, hto.symm, ?_⟩, hl⟩
    show s.pending.span.start = _
    rw [hstart, ho.offset_eq, utf8Length_append]
  · obtain ⟨r, s', hc⟩ := exists_rescan h₀ hr hf
    refine ⟨r, s', hc, ?_⟩
    cases Session.rescanned hc <;> rfl

/-- The line terminator that a string goes over leaves no mark. The one behind a slash does, although
reading that slash again in vain has skipped the opening of the comment it stands in. -/
theorem lineBreak_exact_vain :
    ∃ s₀ es s, start {} "'\\\n' / [ /*\n*/ b" = .ok s₀ ∧ Run s₀ es s ∧
      es.map Event.call = [.lex, .rescan, .setStrict true, .lex] ∧
      (∀ e ∈ es, e.call ≠ .rescan → e.answer.isFailure = false) ∧
      (∃ between, Span.Covers "'\\\n' / [ /*\n*/ b".toList ⟨s.handedTo, s.pending.span.start⟩ between ∧
        true = hasLineTerminator between) ∧
      s.last = (es.filterMap Event.taken?).getLast? := by
  have h : ((start {} "'\\\n' / [ /*\n*/ b").toOption.bind fun s₀ =>
      (s₀.performAll? [.lex, .rescan, .setStrict true, .lex]).map fun r =>
        r.1.all (fun e => e.call == .rescan || !e.answer.isFailure) && r.2.lineBreak && r.2.atEnd?.isNone) =
      some true := by decide +kernel
  obtain ⟨s₀, es, s, h₀, hr, hcalls, h⟩ := exists_run h
  simp only [Bool.and_eq_true, List.all_eq_true, Option.isNone_iff_eq_none] at h
  obtain ⟨⟨hf, hl⟩, ha⟩ := h
  have hf : ∀ e ∈ es, e.call ≠ .rescan → e.answer.isFailure = false := by
    intro e he hc
    simpa [hc] using hf e he
  obtain ⟨⟨between, hb, hm⟩, hlast, -⟩ := lineBreak_exact h₀ hr hf
  exact ⟨s₀, es, s, h₀, hr, hcalls, hf, ⟨between, hb, hl.symm.trans hm⟩, hlast ha⟩

end Session

end EcmaTokens
