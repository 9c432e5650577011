/-
Strict mode interferes with nothing but the kinds of words reserved in it. Two sessions that are the same
in one mode differ at most in the modes in which their tokens were read; the mode in which a token was
read alone decides its kind, and nothing else about it.
-/
import EcmaTokens.Proofs.Session.Mode

namespace EcmaTokens

/-! ## Answers -/

namespace Answer

/-- Tokens that are alike, or else the same answer. -/
inductive Alike : Answer → Answer → Prop
  | token {t t' : Token} : t.Alike t' → Alike (.token t) (.token t')
  | failure (d : Diagnostic) : Alike (.failure d) (.failure d)
  | nothing : Alike .nothing .nothing

theorem Alike.refl (a : Answer) : a.Alike a := by
  cases a with
  | token t => exact .token (.refl t)
  | failure d => exact .failure d
  | nothing => exact .nothing

/-- What is given back in one mode and in another. -/
theorem Alike.inMode {m : Bool} {a : Answer} (h : a.inMode m = a) (m' : Bool) : a.Alike (a.inMode m') := by
  cases a with
  | token t => exact .token (.inMode (Answer.token.inj h) m')
  | failure d => exact .failure d
  | nothing => exact .nothing

end Answer

namespace Session

/-! ## The modes in which tokens are read -/

/-- The mode in force, and the one in which the pending token was read. -/
structure Modes where
  current : Bool
  pending : Bool

/-- The modes after a call. The call that takes a token reads the next one. -/
def Modes.after (M : Modes) (e : Event) : Modes where
  current := match e.call with
    | .setStrict strict => strict
    | _ => M.current
  pending := if e.taken?.isSome then M.current else M.pending

/-- The modes after the events of a run that begins in the mode `strict`. -/
def modes (strict : Bool) (es : List Event) : Modes :=
  es.foldl Modes.after ⟨strict, strict⟩

/-- The session has these modes. The end of the source is the same in any. -/
structure ReadIn (M : Modes) (s : Session) : Prop where
  current : s.settings.strict = M.current
  pending : s.pending.inMode M.pending = s.pending

namespace ReadIn

variable [WideConversion] {M : Modes} {source : List Char} {s s' : Session}

theorem effect (h : s.ReadIn M) (hs : s.Sound source) {e : Event} (he : s.Effect e s') :
    s'.ReadIn (M.after e) := by
  cases he with
  | setStrict strict => exact ⟨rfl, h.pending⟩
  | exhausted => exact ⟨h.current, h.pending⟩
  | @lexed c r s₁ hc hr =>
    have hcur : (M.after ⟨c, deliver c r⟩).current = M.current := by
      rcases hc with rfl | ⟨rfl, -⟩ <;> rfl
    cases hr with
    | atEnd ha =>
      have hk := hs.last (by rw [ha]; rfl)
      exact ⟨h.current.trans hcur.symm, Token.inMode_of_isEof hk _⟩
    | stuck =>
      refine ⟨h.current.trans hcur.symm, ?_⟩
      rw [Modes.after, taken?_of_error hc]
      exact h.pending
    | @handOut t _ ht =>
      refine ⟨h.current.trans hcur.symm, ?_⟩
      show t.inMode _ = t
      by_cases hn : c = .next ∧ s.pending.isEof = true
      · -- behind the end of the source is the end again
        exact Token.inMode_of_isEof ((s.outcome.isEof_iff ht).2 (s.outcome.rest_eq_nil (hs.eof hn.2)).1) _
      · rw [Modes.after, taken?_deliver hc, if_neg hn, Option.isSome_some, if_pos rfl, ← h.current]
        exact Reading.inMode_of_ok ht
  | @rescanned r _ hr =>
    have hM : M.after ⟨.rescan, .ofResult r⟩ = M := rfl
    rw [hM]
    cases hr with
    | unexpected => exact h
    | unterminated => exact ⟨h.current, h.pending⟩
    | literal => exact ⟨h.current, rfl⟩

theorem run {settings : Settings} {source : String} {s₀ : Session} {es : List Event}
    (h₀ : Session.start settings source = .ok s₀) (hr : Run s₀ es s) : s.ReadIn (modes settings.strict es) := by
  have hboth : s.Sound source.toList ∧ s.ReadIn (modes settings.strict es) := by
    refine hr.keeps (fun es s => s.Sound source.toList ∧ s.ReadIn (modes settings.strict es))
      ⟨.start h₀, ?_⟩ ?_
    · obtain ⟨t, ht, rfl⟩ := start_ok h₀
      exact ⟨rfl, Reading.inMode_of_ok ht⟩
    · intro es s e s' h he
      refine ⟨h.1.effect he, ?_⟩
      rw [modes, List.foldl_append]
      exact h.2.effect h.1 he
  exact hboth.2

/-- What is handed out was read in the mode of the pending token. -/
theorem lex (h : s.ReadIn M) : s.lex.1.map (Token.inMode M.pending) = s.lex.1 := by
  have hl := s.lexed
  generalize s.lex.1 = r, s.lex.2 = s₁ at hl
  cases hl with
  | atEnd ha => exact congrArg Except.ok (Token.inMode_of_isEof (Option.filter_eq_some_iff.1 ha).2 _)
  | stuck => rfl
  | handOut => exact congrArg Except.ok h.pending

end ReadIn

/-! ## Two sessions -/

/-- The two sessions agree in all that does not depend on the mode, and the pending tokens are alike. -/
structure Agrees (s s' : Session) : Prop where
  place : s.place = s'.place
  pending : s.pending.Alike s'.pending
  isAtEof : s.isAtEof = s'.isAtEof
  origin : s.origin = s'.origin
  lineBreak : s.lineBreak = s'.lineBreak
  atEnd : s.atEnd? = s'.atEnd?
  count : s.count = s'.count
  finished : s.finished = s'.finished

/-- What a call gives back in two sessions, of which `s` is the first. -/
inductive AnswersAlike (s : Session) (c : Call) : Option Answer → Option Answer → Prop
  | undefined : c = .rescan → AnswersAlike s c none none
  | alike {a a' : Answer} : a.Alike a' → AnswersAlike s c (some a) (some a')
  /-- Only the description tells in which mode a word was read that stands where a slash was expected. -/
  | unexpected {d : Diagnostic} {description : String} : c = .rescan → s.pending.kind.IsStrictWord →
      d.kind = .unexpectedToken → AnswersAlike s c (some (.failure d)) (some (.failure { d with description }))

section Two

variable {M M' : Modes} {m : Bool} {s s' : Session}

theorem pending_eq (h : s.inMode m = s'.inMode m) (h' : s'.ReadIn M') :
    s'.pending = s.pending.inMode M'.pending := by
  have hp : s.pending.inMode m = s'.pending.inMode m := congrArg Session.pending h
  calc s'.pending = s'.pending.inMode M'.pending := h'.pending.symm
    _ = (s'.pending.inMode m).inMode M'.pending := (Token.inMode_inMode ..).symm
    _ = (s.pending.inMode m).inMode M'.pending := by rw [hp]
    _ = s.pending.inMode M'.pending := Token.inMode_inMode ..

theorem map_inMode_inMode (m m' : Bool) (r : Except Diagnostic Token) :
    (r.map (Token.inMode m)).map (Token.inMode m') = r.map (Token.inMode m') := by
  cases r <;> simp only [Except.map, Token.inMode_inMode]

theorem lex_eq [WideConversion] (h : s.inMode m = s'.inMode m) (h' : s'.ReadIn M') :
    s'.lex.1 = s.lex.1.map (Token.inMode M'.pending) := by
  have hl : s.lex.1.map (Token.inMode m) = s'.lex.1.map (Token.inMode m) := by
    have := congrArg (fun s => s.lex.1) h
    simpa only [lex_inMode] using this
  calc s'.lex.1 = s'.lex.1.map (Token.inMode M'.pending) := h'.lex.symm
    _ = (s'.lex.1.map (Token.inMode m)).map (Token.inMode M'.pending) := (map_inMode_inMode ..).symm
    _ = (s.lex.1.map (Token.inMode m)).map (Token.inMode M'.pending) := by rw [hl]
    _ = s.lex.1.map (Token.inMode M'.pending) := map_inMode_inMode ..

/-- What a call other than reading a slash again gives back. -/
theorem answer_eq [WideConversion] (h : s.inMode m = s'.inMode m) (h' : s'.ReadIn M') {c : Call}
    (hc : c = .lex ∨ c = .next) :
    (s'.perform? c).map Prod.fst = (s.perform? c).map fun r => r.1.inMode M'.pending := by
  have hf : s.finished = s'.finished := (congrArg Session.finished h :)
  have asks : s.Asks c →
      (s'.perform? c).map Prod.fst = (s.perform? c).map fun r => r.1.inMode M'.pending := by
    intro hc
    have hc' : s'.Asks c := by rwa [Asks, ← hf]
    rw [perform?_of_asks hc, perform?_of_asks hc', lex_eq h h', deliver_inMode]
    rfl
  rcases hc with rfl | rfl
  · exact asks (.inl rfl)
  · cases hd : s.finished with
    | true =>
      simp only [perform?, next_of_finished hd, next_of_finished (hf.symm.trans hd)]
      rfl
    | false => exact asks (.inr ⟨rfl, hd⟩)

theorem isSlash_eq (h : s.inMode m = s'.inMode m) : s.pending.kind.isSlash = s'.pending.kind.isSlash := by
  have hk : (s.inMode m).pending.kind.isSlash = (s'.inMode m).pending.kind.isSlash := by rw [h]
  exact (Kind.isSlash_inMode m _).symm.trans (hk.trans (Kind.isSlash_inMode m _))

/-- A slash is read again the same way. -/
theorem rescan_eq [WideConversion] (h : s.inMode m = s'.inMode m) (hs : s.pending.kind.isSlash = true) :
    (s'.perform? .rescan).map Prod.fst = (s.perform? .rescan).map Prod.fst := by
  have hr := rescan_inMode_of_isSlash hs m
  rw [h, rescan_inMode_of_isSlash (isSlash_eq h ▸ hs) m] at hr
  have hr := congrArg (Option.map fun r => Answer.ofResult r.1) hr
  rw [Option.map_map, Option.map_map] at hr
  rw [perform?, perform?, Option.map_map, Option.map_map]
  exact hr

theorem agrees (h : s.inMode m = s'.inMode m) (hM : s.ReadIn M) (hM' : s'.ReadIn M') : s.Agrees s' := by
  have hp := pending_eq h hM'
  have ha : (s.inMode m).atEnd? = (s'.inMode m).atEnd? := by rw [h]
  rw [atEnd?_inMode, atEnd?_inMode] at ha
  refine ⟨(congrArg Session.place h :), ?_, ?_, (congrArg Session.origin h :), (congrArg Session.lineBreak h :),
    ha, (congrArg Session.count h :), (congrArg Session.finished h :)⟩
  · rw [hp]; exact .inMode hM.pending _
  · rw [isAtEof, isAtEof, hp, Token.isEof_inMode]

theorem answersAlike [WideConversion] (h : s.inMode m = s'.inMode m) (hM : s.ReadIn M) (hM' : s'.ReadIn M') {c : Call}
    (hc : c.isQuery = true) :
    AnswersAlike s c ((s.perform? c).map Prod.fst) ((s'.perform? c).map Prod.fst) := by
  have reads : c = .lex ∨ c = .next →
      AnswersAlike s c ((s.perform? c).map Prod.fst) ((s'.perform? c).map Prod.fst) := by
    intro hc
    have hown := answer_eq (m := m) rfl hM hc
    rw [answer_eq h hM' hc]
    obtain ⟨⟨a, s₁⟩, hp⟩ : ∃ r, s.perform? c = some r := by rcases hc with rfl | rfl <;> exact ⟨_, rfl⟩
    rw [hp] at hown ⊢
    exact .alike (.inMode (Option.some.inj hown).symm _)
  cases c with
  | lex => exact reads (.inl rfl)
  | next => exact reads (.inr rfl)
  | setStrict => cases hc
  | rescan =>
    cases hs : s.pending.kind.isSlash with
    | true =>
      rw [rescan_eq h hs]
      cases (s.perform? .rescan).map Prod.fst with
      | none => exact .undefined rfl
      | some a => exact .alike (.refl a)
    | false =>
      rw [perform?, perform?, rescan_of_not_isSlash hs, rescan_of_not_isSlash ((isSlash_eq h).symm.trans hs),
        pending_eq h hM']
      rcases Kind.inMode_cases (congrArg Token.kind hM.pending) M'.pending with hk | ⟨w, hk, -⟩
      · have ht : s.pending.inMode M'.pending = s.pending := by rw [Token.inMode, ← hk]
        rw [ht]
        exact .alike (.failure _)
      · rw [Diagnostic.unexpected_inMode]
        exact .unexpected rfl ⟨w, M.pending, hk⟩ (Diagnostic.kind_unexpected _)

/-- In the same mode the pending tokens and the answers are the same. -/
theorem answers_eq [WideConversion] (h : s.inMode m = s'.inMode m) (hM : s.ReadIn M) (hM' : s'.ReadIn M')
    (hp : M.pending = M'.pending) :
    s.pending = s'.pending ∧
      ∀ c, c.isQuery = true → (s.perform? c).map Prod.fst = (s'.perform? c).map Prod.fst := by
  have hpending : s.pending = s'.pending := by rw [pending_eq h hM', ← hp, hM.pending]
  refine ⟨hpending, fun c hc => ?_⟩
  have reads : c = .lex ∨ c = .next → (s.perform? c).map Prod.fst = (s'.perform? c).map Prod.fst := by
    intro hc
    rw [answer_eq (m := m) rfl hM hc, answer_eq h hM' hc, hp]
  cases c with
  | lex => exact reads (.inl rfl)
  | next => exact reads (.inr rfl)
  | setStrict => cases hc
  | rescan =>
    cases hs : s.pending.kind.isSlash with
    | true => exact (rescan_eq h hs).symm
    | false =>
      rw [perform?, perform?, rescan_of_not_isSlash hs, rescan_of_not_isSlash (hpending ▸ hs), hpending]
      rfl

end Two

/-! ## Noninterference -/

/-- Strict mode does not interfere. The start fails alike in both modes. Two runs of any length that differ in
the mode at the start and in the calls that set it lead to sessions that agree, so they agree after every
call; and there each other call gives back what it does in the other session: the same failure or nothing, or
tokens that differ at most in the kind of a word reserved in strict mode. The mode in which the pending token
was read alone decides its kind: if it is the same in both runs, so is the token, and so are the answers. -/
theorem mode_noninterference [WideConversion] (html : Bool) (source : String) (strict strict' : Bool) :
    (∀ d, start ⟨strict, html⟩ source = .error d ↔ start ⟨strict', html⟩ source = .error d) ∧
    ∀ s₀ s₀' es es' s s', start ⟨strict, html⟩ source = .ok s₀ → start ⟨strict', html⟩ source = .ok s₀' →
      Run s₀ es s → Run s₀' es' s' → queries es = queries es' →
      s.Agrees s' ∧
      (∀ c, c.isQuery = true → AnswersAlike s c ((s.perform? c).map Prod.fst) ((s'.perform? c).map Prod.fst)) ∧
      ((modes strict es).pending = (modes strict' es').pending → s.pending = s'.pending ∧
        ∀ c, c.isQuery = true → (s.perform? c).map Prod.fst = (s'.perform? c).map Prod.fst) := by
  constructor
  · intro d
    have h := start_inMode strict' ⟨strict, html⟩ source
    rw [show (⟨strict, html⟩ : Settings).inMode strict' = ⟨strict', html⟩ from rfl] at h
    rw [h]
    cases start ⟨strict, html⟩ source <;> simp [Except.map]
  · intro s₀ s₀' es es' s s' h₀ h₀' hr hr' hq
    have h := inMode_eq h₀ h₀' rfl hr hr' hq strict
    have hM := ReadIn.run h₀ hr
    have hM' := ReadIn.run h₀' hr'
    exact ⟨agrees h hM hM', fun c => answersAlike h hM hM', answers_eq h hM hM'⟩

/-- The first word is read in different modes, and the second one in strict mode both times. -/
theorem mode_noninterference_words :
    ∃ s₀ s₀' es es' s s', start ⟨false, true⟩ "let yield" = .ok s₀ ∧ start ⟨true, true⟩ "let yield" = .ok s₀' ∧
      Run s₀ es s ∧ Run s₀' es' s' ∧ es.map Event.call = [.rescan, .setStrict true, .lex] ∧
      es'.map Event.call = [.rescan, .lex] ∧ es.head? ≠ es'.head? ∧ s.Agrees s' ∧ s.pending = s'.pending ∧
      AnswersAlike s .next ((s.perform? .next).map Prod.fst) ((s'.perform? .next).map Prod.fst) := by
  have h : ((start ⟨false, true⟩ "let yield").toOption.bind fun s₀ =>
      (start ⟨true, true⟩ "let yield").toOption.bind fun s₀' =>
        (s₀.performAll? [.rescan, .setStrict true, .lex]).bind fun r =>
          (s₀'.performAll? [.rescan, .lex]).map fun r' =>
            (r.1.map Event.call, r'.1.map Event.call, r.1.head? != r'.1.head?,
              (modes false r.1).pending, (modes true r'.1).pending)) =
      some ([.rescan, .setStrict true, .lex], [.rescan, .lex], true, true, true) := by decide +kernel
  obtain ⟨s₀, h₀, h⟩ := Option.bind_eq_some_iff.1 h
  obtain ⟨s₀', h₀', h⟩ := Option.bind_eq_some_iff.1 h
  obtain ⟨⟨es, s⟩, hr, h⟩ := Option.bind_eq_some_iff.1 h
  obtain ⟨⟨es', s'⟩, hr', h⟩ := Option.map_eq_some_iff.1 h
  simp only [Prod.mk.injEq] at h
  obtain ⟨hc, hc', hne, hm, hm'⟩ := h
  have h₀ := ok_of_toOption h₀
  have h₀' := ok_of_toOption h₀'
  have hr := run_of_performAll? hr
  have hr' := run_of_performAll? hr'
  have hq : queries es = queries es' := by rw [queries, queries, hc, hc']; rfl
  obtain ⟨hagrees, halike, hsame⟩ :=
    (mode_noninterference true "let yield" false true).2 s₀ s₀' es es' s s' h₀ h₀' hr hr' hq
  exact ⟨s₀, s₀', es, es', s, s', h₀, h₀', hr, hr', hc, hc', by simpa using hne, hagrees,
    (hsame (hm.trans hm'.symm)).1, halike .next rfl⟩

end Session

end EcmaTokens
