/-
Tokens and gaps cover the source. In a run without failures the tokens taken from a session and the
pending one are slices of the source, in order and apart from each other; between them, and in front
of the first, stands nothing but gaps; and the cursor is at the end of the pending token.
-/
import EcmaTokens.Proofs.Session.Invariant
import Mathlib.Data.List.Chain

namespace EcmaTokens

/-! ## Tilings -/

/-- The bytes of the span are the text, whole characters of the source. -/
def Span.Covers (source : List Char) (s : Span) (text : List Char) : Prop :=
  ∃ before after, source = before ++ text ++ after ∧ s.start = utf8Length before ∧
    s.stop = utf8Length before + utf8Length text

/-- Between two spans of the source stands a gap. -/
def Span.GapTo (html : Bool) (source : List Char) (a b : Span) : Prop :=
  ∃ before gap after, source = before ++ gap ++ after ∧ a.stop = utf8Length before ∧
    b.start = utf8Length before + utf8Length gap ∧ Gap.Filled html before.isEmpty gap after

/-- Tokens that follow one another in a source with gaps between them. The empty span stands for the
beginning of the source. -/
structure Tiling (html : Bool) (source : List Char) (ts : List Token) : Prop where
  text : ∀ t ∈ ts, t.span.Covers source t.text.toList
  nonempty : ∀ t ∈ ts, t.isEof = false → t.span.start < t.span.stop
  ordered : ts.Pairwise fun a b => a.span.stop ≤ b.span.start
  gaps : (⟨0, 0⟩ :: ts.map Token.span).IsChain (Span.GapTo html source)
  eof : ∀ t ∈ ts, t.isEof = true → t.span = ⟨utf8Length source, utf8Length source⟩
  count : (ts.filter fun t => !t.isEof).length ≤ utf8Length source

/-- The tokens, each behind a gap, make up the text `covered` at the front of the source. -/
inductive Tiles (html : Bool) (source : List Char) : List Token → List Char → Prop
  | nil : Tiles html source [] []
  | snoc {ts : List Token} {covered gap rest : List Char} {t : Token} :
      Tiles html source ts covered → source = covered ++ gap ++ t.text.toList ++ rest →
      Gap.Filled html covered.isEmpty gap (t.text.toList ++ rest) →
      t.span = ⟨utf8Length (covered ++ gap), utf8Length (covered ++ gap ++ t.text.toList)⟩ →
      (t.isEof = false → t.text.toList ≠ []) →
      (t.isEof = true → t.text.toList = [] ∧ rest = []) →
      Tiles html source (ts ++ [t]) (covered ++ gap ++ t.text.toList)

namespace Tiles

variable {html : Bool} {source covered : List Char} {ts : List Token}

theorem stop_le (h : Tiles html source ts covered) : ∀ t ∈ ts, t.span.stop ≤ utf8Length covered := by
  induction h with
  | nil => intro t ht; cases ht
  | @snoc ts covered gap rest t _ _ _ hs _ _ ih =>
    intro t' ht'
    rcases List.mem_append.1 ht' with ht' | ht'
    · have := ih t' ht'
      simp only [utf8Length_append]
      omega
    · obtain rfl : t' = t := by simpa using ht'
      rw [hs]

/-- The last span ends where the covered text does. -/
theorem getLast_stop (h : Tiles html source ts covered) :
    ∀ s ∈ (⟨0, 0⟩ :: ts.map Token.span : List Span).getLast?, s.stop = utf8Length covered := by
  cases h with
  | nil => simp
  | snoc _ _ _ hs _ _ => simp [List.getLast?_cons, List.getLast?_append, hs]

theorem count_le (h : Tiles html source ts covered) :
    (ts.filter fun t => !t.isEof).length ≤ utf8Length covered := by
  induction h with
  | nil => simp
  | @snoc ts covered gap rest t _ _ _ _ hne _ ih =>
    rw [List.filter_append, List.length_append, utf8Length_append, utf8Length_append]
    cases he : t.isEof with
    | true => simp only [List.filter_cons, he]; simp; omega
    | false =>
      have := utf8Length_pos (hne he)
      simp only [List.filter_cons, he]
      simp
      omega

theorem length_le (h : Tiles html source ts covered) : utf8Length covered ≤ utf8Length source := by
  have hp : covered <+: source := by
    cases h with
    | nil => exact List.nil_prefix
    | snoc _ hs _ _ _ _ => rw [hs]; exact List.prefix_append _ _
  obtain ⟨rest, rfl⟩ := hp
  rw [utf8Length_append]
  omega

theorem tiling (h : Tiles html source ts covered) : Tiling html source ts := by
  have hcount := Nat.le_trans h.count_le h.length_le
  induction h with
  | nil => exact ⟨by simp, by simp, .nil, .singleton _, by simp, by simp⟩
  | @snoc ts covered gap rest t ht hs hg hspan hne he ih =>
    have ih := ih (Nat.le_trans ht.count_le ht.length_le)
    have mem : ∀ {P : Token → Prop}, (∀ t' ∈ ts, P t') → P t → ∀ t' ∈ ts ++ [t], P t' := by
      intro P h₁ h₂ t' ht'
      rcases List.mem_append.1 ht' with ht' | ht'
      · exact h₁ t' ht'
      · rw [List.mem_singleton.1 ht']; exact h₂
    refine ⟨mem ih.text ?_, mem ih.nonempty fun hk => ?_, ?_, ?_, mem ih.eof fun hk => ?_, hcount⟩
    · exact ⟨covered ++ gap, rest, hs, by rw [hspan], by simp only [hspan, utf8Length_append]⟩
    · have := utf8Length_pos (hne hk)
      rw [hspan]
      simp only [utf8Length_append]
      omega
    · refine List.pairwise_append.2 ⟨ih.ordered, List.pairwise_singleton _ _, ?_⟩
      intro a ha b hb
      have := ht.stop_le a ha
      rw [List.mem_singleton.1 hb, hspan]
      simp only [utf8Length_append]
      omega
    · -- the chain of gaps goes on from where the covered text ends
      rw [List.map_append, ← List.cons_append]
      apply ih.gaps.append (.singleton _)
      intro a ha b hb
      obtain rfl : t.span = b := by simpa using hb
      refine ⟨covered, gap, t.text.toList ++ rest, by rw [hs]; simp, ht.getLast_stop a ha, ?_, hg⟩
      rw [hspan, utf8Length_append]
    · obtain ⟨htext, rfl⟩ := he hk
      rw [hspan, hs, htext]
      simp

end Tiles

/-! ## Tokens at their place -/

/-- The token is the text from one place to another, which only the end of the source leaves empty. -/
def Token.Extends (t : Token) (origin stop : Place) : Prop :=
  ∃ n, t = .ofPlace t.kind origin n ∧ stop = origin.advance n ∧ CutsClean origin.rest n ∧
    (t.isEof = false → 0 < n ∧ origin.rest ≠ []) ∧ (t.isEof = true → origin.rest = [])

namespace Token.Extends

variable {html : Bool} {source covered gap : List Char} {ts : List Token} {t : Token} {origin stop : Place}

/-- Behind a gap it is the next token of the tiling. -/
theorem snoc (h : t.Extends origin stop) (ht : Tiles html source ts covered)
    (ho : origin.Behind source (covered ++ gap)) (hg : Gap.Filled html covered.isEmpty gap origin.rest) :
    Tiles html source (ts ++ [t]) (covered ++ gap ++ t.text.toList) ∧
      stop.Behind source (covered ++ gap ++ t.text.toList) := by
  obtain ⟨n, heq, rfl, hn, hne, he⟩ := h
  have htext : t.text.toList = origin.rest.take n := by rw [heq]; exact String.toList_ofList
  have hrest : t.text.toList ++ origin.rest.drop n = origin.rest := by rw [htext, List.take_append_drop]
  have hs : (origin.advance n).Behind source (covered ++ gap ++ t.text.toList) := by
    rw [htext]; exact ho.advance hn
  refine ⟨.snoc ht hs.eq_append (by rwa [Place.rest_advance, hrest]) ?_ ?_ ?_, hs⟩
  · rw [← ho.offset_eq, ← hs.offset_eq, heq]
    rfl
  · intro hk
    obtain ⟨hpos, hnil⟩ := hne hk
    rw [htext, ne_eq, List.take_eq_nil_iff, not_or]
    exact ⟨by omega, hnil⟩
  · intro hk
    rw [htext, Place.rest_advance, he hk]
    exact ⟨List.take_nil, List.drop_nil⟩

/-- The end of the source has no extent. -/
theorem eof (h : t.Extends origin stop) (hk : t.isEof = true) : origin.rest = [] ∧ stop = origin := by
  obtain ⟨n, -, rfl, -, -, he⟩ := h
  exact ⟨he hk, Place.advance_of_rest_nil (he hk) n⟩

end Token.Extends

namespace Reading.Outcome

variable {settings : Settings} {p : Place} {r : Reading} {t : Token} {source covered : List Char}

theorem extends_token [WideConversion] (h : Outcome settings p r) (ht : r.result = .ok t) :
    t.Extends r.origin r.stop := by
  have hk := h.isEof_iff ht
  cases h with
  | unclosed => cases ht
  | eof hg hr =>
    cases ht
    exact ⟨0, rfl, (Place.advance_zero _).symm, .zero _, fun h => absurd (hk.2 hr) (by simp [h]), hk.1⟩
  | @lexeme n m x hg hx =>
    cases ht
    exact ⟨m, rfl, rfl, Lexeme.cutsClean_of_scan hx,
      fun _ => ⟨(Lexeme.scan_pos hx).1, List.ne_nil_of_length_pos (Lexeme.scan_pos hx).2⟩, hk.1⟩
  | malformed => cases ht

/-- What is skipped in front of a token is a gap. -/
theorem gap [WideConversion] (h : Outcome settings p r) (ht : r.result = .ok t) (hp : p.Behind source covered) :
    ∃ gap, r.origin.Behind source (covered ++ gap) ∧
      Gap.Filled settings.htmlComments covered.isEmpty gap r.origin.rest := by
  -- in both cases the gap is what skipping went over
  have skip : ∀ {n : Nat}, Gap.scan settings.htmlComments (p.offset == 0) p.rest = .read () n →
      (p.advance n).Behind source (covered ++ p.rest.take n) ∧
        Gap.Filled settings.htmlComments covered.isEmpty (p.rest.take n) (p.rest.drop n) := by
    intro n hg
    refine ⟨hp.advance (Gap.cutsClean_of_scan hg), ?_⟩
    have := Gap.filled_scan settings.htmlComments (p.offset == 0) p.rest
    rwa [hg, hp.isEmpty_eq] at this
  cases h with
  | unclosed => cases ht
  | eof hg _ => exact ⟨_, skip hg⟩
  | lexeme hg _ => exact ⟨_, skip hg⟩
  | malformed => cases ht

end Reading.Outcome

/-! ## Runs without failures -/

namespace Session

/-- The tokens `ts` taken from a session tile the source up to the gap in front of the pending token,
and the cursor is behind that token. -/
structure Tiled (html : Bool) (source : List Char) (ts : List Token) (s : Session) : Prop where
  sound : s.Sound source
  comments : s.settings.htmlComments = html
  pending : s.pending.Extends s.origin s.place
  tiles : ∃ covered gap, Tiles html source ts covered ∧ s.origin.Behind source (covered ++ gap) ∧
    Gap.Filled html covered.isEmpty gap s.origin.rest
  atEnd : ∀ t, s.atEnd? = some t → t.Extends s.origin s.place

namespace Tiled

variable {html : Bool} {source : List Char} {ts : List Token} {s s' : Session}

section

variable [WideConversion]

/-- Reading behind the end of the source finds it where it was. -/
theorem reading_of_eof (h : s.Tiled html source ts) (hk : s.pending.isEof = true) {t : Token}
    (ht : s.reading.result = .ok t) : s.reading.origin = s.origin ∧ s.reading.stop = s.place := by
  obtain ⟨hr, hp⟩ := h.pending.eof hk
  have hrest : s.place.rest = [] := by rw [hp, hr]
  have ho : s.reading.origin = s.place := by
    obtain ⟨n, hn⟩ := s.outcome.origin_eq ht
    rw [hn, Place.advance_of_rest_nil hrest]
  have hs := (s.outcome.extends_token ht).eof ((s.outcome.isEof_iff ht).2 (by rw [ho, hrest]))
  exact ⟨by rw [ho, hp], by rw [hs.2, ho]⟩

/-- A token that is taken joins the tiling. -/
theorem take (h : s.Tiled html source ts) {t : Token} (ht : s.reading.result = .ok t) :
    (s.handOut t).Tiled html source (ts ++ [s.pending]) := by
  obtain ⟨covered, gap, htiles, ho, hg⟩ := h.tiles
  obtain ⟨htiles', hp⟩ := h.pending.snoc htiles ho hg
  obtain ⟨gap', ho', hg'⟩ := s.outcome.gap ht hp
  rw [h.comments] at hg'
  refine ⟨h.sound.handOut ht, h.comments, s.outcome.extends_token ht, ⟨_, gap', htiles', ho', hg'⟩, ?_⟩
  intro t' hl
  -- if the token taken is the end of the source, it extends from where the next one was read
  obtain ⟨heq, hk⟩ := Option.filter_eq_some_iff.1 hl
  cases heq
  obtain ⟨hor, hst⟩ := h.reading_of_eof hk ht
  show s.pending.Extends s.reading.origin s.reading.stop
  rw [hor, hst]
  exact h.pending

/-- The end of the source may go untaken. -/
theorem skip (h : s.Tiled html source ts) (hk : s.pending.isEof = true) {t : Token}
    (ht : s.reading.result = .ok t) : (s.handOut t).Tiled html source ts := by
  obtain ⟨hor, -⟩ := h.reading_of_eof hk ht
  obtain ⟨covered, gap, htiles, ho, hg⟩ := h.tiles
  have h' := h.take ht
  refine ⟨h'.sound, h'.comments, h'.pending, ⟨covered, gap, htiles, ?_, ?_⟩, h'.atEnd⟩
  · show s.reading.origin.Behind source _
    rw [hor]; exact ho
  · show Gap.Filled html _ gap s.reading.origin.rest
    rw [hor]; exact hg

end

/-- The end of the source can be taken again and again. -/
theorem again (h : s.Tiled html source ts) {t : Token} (ht : s.atEnd? = some t) :
    s.Tiled html source (ts ++ [t]) := by
  obtain ⟨covered, gap, htiles, ho, hg⟩ := h.tiles
  have hx := h.atEnd t ht
  obtain ⟨htiles', hp⟩ := hx.snoc htiles ho hg
  obtain ⟨hr, hp'⟩ := hx.eof (Option.filter_eq_some_iff.1 ht).2
  refine ⟨h.sound, h.comments, h.pending, ⟨_, [], htiles', ?_, .nil⟩, h.atEnd⟩
  rw [List.append_nil, ← hp']; exact hp

/-- The sequence being finished or not plays no part. -/
theorem settle (h : s.Tiled html source ts) (c : Call) (a : Answer) : (s.settle c a).Tiled html source ts :=
  ⟨⟨h.sound.cursor, h.sound.pending, h.sound.slash, h.sound.eof, h.sound.last⟩, h.comments, h.pending, h.tiles,
    h.atEnd⟩

variable [WideConversion]

/-- Without a failure every call keeps the source tiled by the tokens taken. -/
theorem effect (h : s.Tiled html source ts) {e : Event} (he : s.Effect e s') (hf : e.answer.isFailure = false) :
    s'.Tiled html source (ts ++ e.taken?.toList) := by
  cases he with
  | setStrict strict =>
    rw [show Event.taken? ⟨.setStrict strict, .nothing⟩ = none from rfl, Option.toList_none, List.append_nil]
    exact ⟨h.sound.effect (.setStrict strict), h.comments, h.pending, h.tiles, h.atEnd⟩
  | exhausted => simpa [Event.taken?] using h
  | @lexed c r s₁ hc hr =>
    refine settle ?_ _ _
    cases hr with
    | @atEnd t ht =>
      rw [taken?_deliver hc]
      split
      · simpa using h
      · exact h.again ht
    | stuck => cases hf
    | @handOut t _ ht =>
      rw [taken?_deliver hc]
      split
      · next hk => simpa using h.skip hk.2 ht
      · exact h.take ht
  | rescanned hr =>
    cases hr with
    | unexpected => cases hf
    | unterminated => cases hf
    | @literal n hk hl hn =>
      have hfree := h.sound.lineFree_rescan hk hn
      have hnil : s.origin.rest ≠ [] := by
        intro hr
        have := h.sound.slash hk
        rw [hr] at this
        cases this
      refine ⟨h.sound.rescanned (.literal hk hl hn), h.comments,
        ⟨n, rfl, rfl, .of_lineFree hfree, fun _ => ⟨RegularExpression.scan_pos hn, hnil⟩, fun hk => by cases hk⟩,
        ?_, ?_⟩
      · rw [show Event.taken? ⟨.rescan, .ofResult (.ok (s.regExp n))⟩ = none from rfl, Option.toList_none,
          List.append_nil]
        exact h.tiles
      · -- the end of the source was not handed out, as a slash is pending
        intro t ht
        have := h.sound.last (by rw [show s.atEnd? = some t from ht]; rfl)
        rw [Sound.notEof_of_isSlash hk] at this
        cases this

theorem start {settings : Settings} {source : String} (h : Session.start settings source = .ok s) :
    s.Tiled settings.htmlComments source.toList [] := by
  have hs := Sound.start h
  obtain ⟨t, ht, rfl⟩ := start_ok h
  have o : (firstReading settings source).Outcome settings (.start source.toList) := Reading.outcome _ _
  obtain ⟨gap, ho, hg⟩ := o.gap ht (.start source.toList)
  exact ⟨hs, rfl, o.extends_token ht, ⟨[], gap, .nil, ho, hg⟩, fun t ht => by cases ht⟩

theorem run {settings : Settings} {source : String} {s₀ : Session} {es : List Event}
    (h₀ : Session.start settings source = .ok s₀) (hr : Run s₀ es s)
    (hf : ∀ e ∈ es, e.answer.isFailure = false) :
    s.Tiled settings.htmlComments source.toList (es.filterMap Event.taken?) := by
  refine hr.keeps (fun es s => (∀ e ∈ es, e.answer.isFailure = false) →
    s.Tiled settings.htmlComments source.toList (es.filterMap Event.taken?)) (fun _ => start h₀) ?_ hf
  intro es s e s' ih he hf
  have h := (ih fun e' he' => hf e' (List.mem_append_left _ he')).effect he (hf e (by simp))
  rw [List.filterMap_append]
  cases ht : e.taken? <;> simpa [ht] using h

end Tiled

/-! ## Tiling -/

/-- In every run without failures the tokens taken, followed by the pending one, tile the source: each
is the text of its span, and between them and in front of the first there is nothing but gaps. The
cursor is at the end of the pending token. -/
theorem tokens_tile [WideConversion] {settings : Settings} {source : String} {s₀ s : Session} {es : List Event}
    (h₀ : start settings source = .ok s₀) (hr : Run s₀ es s) (hf : ∀ e ∈ es, e.answer.isFailure = false) :
    Tiling settings.htmlComments source.toList (es.filterMap Event.taken? ++ [s.pending]) ∧
      s.place.offset = s.pending.span.stop := by
  have h := Tiled.run h₀ hr hf
  obtain ⟨covered, gap, htiles, ho, hg⟩ := h.tiles
  refine ⟨(h.pending.snoc htiles ho hg).1.tiling, ?_⟩
  obtain ⟨n, heq, hp, -⟩ := h.pending
  rw [heq, hp]
  rfl

/-- A slash read again, a comment to the end of the source, and the end taken twice. -/
theorem tokens_tile_literal :
    ∃ s₀ es s, start {} "/=a/g; <!-- b" = .ok s₀ ∧ Run s₀ es s ∧
      es.map Event.call = [.rescan, .lex, .next, .lex, .lex] ∧ (∀ e ∈ es, e.answer.isFailure = false) ∧
      Tiling true "/=a/g; <!-- b".toList (es.filterMap Event.taken? ++ [s.pending]) ∧
      s.place.offset = s.pending.span.stop := by
  have h : ((start {} "/=a/g; <!-- b").toOption.bind fun s₀ =>
      (s₀.performAll? [.rescan, .lex, .next, .lex, .lex]).map fun r =>
        (r.1.map Event.call, r.1.all fun e => !e.answer.isFailure)) =
      some ([.rescan, .lex, .next, .lex, .lex], true) := by decide +kernel
  obtain ⟨s₀, h₀, h⟩ := Option.bind_eq_some_iff.1 h
  obtain ⟨⟨es, s⟩, hr, h⟩ := Option.map_eq_some_iff.1 h
  obtain ⟨hcalls, hf⟩ := Prod.mk.inj h
  have h₀ := ok_of_toOption h₀
  have hf : ∀ e ∈ es, e.answer.isFailure = false := by simpa [List.all_eq_true] using hf
  have hr := run_of_performAll? hr
  exact ⟨s₀, es, s, h₀, hr, hcalls, hf, tokens_tile h₀ hr hf⟩

end Session

end EcmaTokens
