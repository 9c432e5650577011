/-
Sessions in a mode. Putting a session in a mode, as if all its tokens had been read there, commutes with
every call but those that set the mode; so two runs that differ in these calls alone, and in the mode in
which they begin, lead to sessions that are the same in any one mode.
-/
import EcmaTokens.Proofs.Session.Invariant
import EcmaTokens.Proofs.Token.Mode

namespace EcmaTokens

/-! ## Reading in a mode -/

def Settings.inMode (m : Bool) (settings : Settings) : Settings :=
  { settings with strict := m }

namespace Reading

/-- The reading with its token in a mode. -/
def inMode (m : Bool) (r : Reading) : Reading :=
  { r with result := r.result.map (Token.inMode m) }

variable [WideConversion]

theorem ofOrigin_inMode (m strict lineBreak : Bool) (p : Place) :
    ofOrigin m lineBreak p = (ofOrigin strict lineBreak p).inMode m := by
  unfold ofOrigin
  split
  · rfl
  · cases Lexeme.scan p.rest with
    | malformed => rfl
    | read x n =>
      show (⟨.ok (.ofPlace (x.kind m) p n), p, p.advance n, lineBreak⟩ : Reading) = _
      rw [← Lexeme.kind_inMode strict m x]
      rfl

theorem ofPlace_inMode (m : Bool) (settings : Settings) (p : Place) :
    ofPlace (settings.inMode m) p = (ofPlace settings p).inMode m := by
  unfold ofPlace
  rcases hg : Gap.skip settings.htmlComments ⟨p.offset == 0, false⟩ p.rest with ⟨⟨u, n⟩ | n, lineBreak⟩
  · simp only [Settings.inMode, hg]
    exact ofOrigin_inMode ..
  · simp only [Settings.inMode, hg]
    rfl

/-- A token that is read is one of the mode in force. -/
theorem inMode_of_ok {settings : Settings} {p : Place} {t : Token} (h : (ofPlace settings p).result = .ok t) :
    t.inMode settings.strict = t := by
  have hset : settings.inMode settings.strict = settings := rfl
  have hr := congrArg Reading.result (ofPlace_inMode settings.strict settings p)
  rw [hset, inMode, h] at hr
  exact (Except.ok.inj hr).symm

end Reading

/-! ## Sessions in a mode -/

/-- The call does not set the mode. -/
def Call.isQuery : Call → Bool
  | .setStrict _ => false
  | _ => true

namespace Answer

def inMode (m : Bool) : Answer → Answer
  | token t => token (t.inMode m)
  | a => a

theorem isToken_inMode (m : Bool) (a : Answer) : (a.inMode m).isToken = a.isToken := by
  cases a <;> rfl

end Answer

namespace Session

/-- The session as it would be if all its tokens had been read in a mode. -/
def inMode (m : Bool) (s : Session) : Session :=
  { s with
    settings := s.settings.inMode m, pending := s.pending.inMode m, last := s.last.map (Token.inMode m) }

theorem reading_inMode [WideConversion] (m : Bool) (s : Session) : (s.inMode m).reading = s.reading.inMode m :=
  Reading.ofPlace_inMode m s.settings s.place

theorem atEnd?_inMode (m : Bool) (s : Session) : (s.inMode m).atEnd? = s.atEnd? := by
  show (s.last.map (Token.inMode m)).filter Token.isEof = s.last.filter Token.isEof
  cases s.last with
  | none => rfl
  | some t =>
    rw [Option.map_some, Option.filter_some, Option.filter_some, Token.isEof_inMode]
    split
    · next h => rw [Token.inMode_of_isEof h]
    · rfl

section

variable [WideConversion]

theorem stuck_inMode (m : Bool) (s : Session) : (s.inMode m).stuck = s.stuck.inMode m := by
  rw [stuck, reading_inMode]; rfl

theorem handOut_inMode (m : Bool) (s : Session) (t : Token) :
    (s.inMode m).handOut (t.inMode m) = (s.handOut t).inMode m := by
  rw [handOut, reading_inMode]; rfl

theorem lex_inMode (m : Bool) (s : Session) :
    (s.inMode m).lex = (s.lex.1.map (Token.inMode m), s.lex.2.inMode m) := by
  have ha := atEnd?_inMode m s
  cases hl : s.atEnd? with
  | some t =>
    have ht := Token.inMode_of_isEof (Option.filter_eq_some_iff.1 hl).2 m
    rw [lex_of_atEnd hl, lex_of_atEnd (ha.trans hl)]
    simp only [Except.map, ht]
  | none =>
    have hr := congrArg Reading.result (reading_inMode m s)
    cases hres : s.reading.result with
    | error d =>
      simp only [Reading.inMode, hres, Except.map] at hr
      rw [lex_of_error hl hres, lex_of_error (ha.trans hl) hr, stuck_inMode]
      rfl
    | ok t =>
      simp only [Reading.inMode, hres, Except.map] at hr
      rw [lex_of_ok hl hres, lex_of_ok (ha.trans hl) hr, handOut_inMode]
      rfl

end

theorem deliver_inMode (m : Bool) (c : Call) (r : Except Diagnostic Token) :
    deliver c (r.map (Token.inMode m)) = (deliver c r).inMode m := by
  cases r with
  | error d => rfl
  | ok t =>
    simp only [Except.map, deliver, Token.isEof_inMode]
    split <;> rfl

theorem settle_inMode (m : Bool) (s : Session) (c : Call) (a : Answer) :
    (s.inMode m).settle c (a.inMode m) = (s.settle c a).inMode m := by
  rw [settle, Answer.isToken_inMode]; rfl

theorem perform?_inMode_of_asks [WideConversion] {s : Session} {c : Call} (hc : s.Asks c) (m : Bool) :
    (s.inMode m).perform? c = (s.perform? c).map fun r => (r.1.inMode m, r.2.inMode m) := by
  have hc' : (s.inMode m).Asks c := hc
  rw [perform?_of_asks hc, perform?_of_asks hc', lex_inMode, deliver_inMode, settle_inMode]
  rfl

theorem rescan_inMode_of_isSlash {s : Session} (hs : s.pending.kind.isSlash = true) (m : Bool) :
    (s.inMode m).rescanRegExp? = s.rescanRegExp?.map fun r => (r.1, r.2.inMode m) := by
  have hs' : (s.inMode m).pending.kind.isSlash = true := (Kind.isSlash_inMode m _).trans hs
  have ho : (s.inMode m).origin = s.origin := rfl
  have hp : (s.inMode m).place = s.place := rfl
  simp only [rescanRegExp?, hs, hs', ho, hp, Bool.not_true, Bool.false_eq_true, if_false]
  split
  · rfl
  · cases RegularExpression.scan s.origin.rest <;> rfl

theorem rescan_of_not_isSlash {s : Session} (hs : s.pending.kind.isSlash = false) :
    s.rescanRegExp? = some (.error (.unexpected s.pending), s) := by
  simp [rescanRegExp?, hs]

/-- The session that a call leaves behind, in a mode. Setting the mode aside, the call does the same there. -/
theorem perform?_inMode [WideConversion] {c : Call} (hc : c.isQuery = true) (m : Bool) (s : Session) :
    ((s.inMode m).perform? c).map Prod.snd = (s.perform? c).map fun r => r.2.inMode m := by
  have asks : s.Asks c → ((s.inMode m).perform? c).map Prod.snd = (s.perform? c).map fun r => r.2.inMode m := by
    intro hc
    rw [perform?_inMode_of_asks hc, Option.map_map]
    rfl
  cases c with
  | lex => exact asks (.inl rfl)
  | next =>
    cases hf : s.finished with
    | true =>
      have hf' : (s.inMode m).finished = true := hf
      simp only [perform?, next_of_finished hf, next_of_finished hf', Option.map_some]
    | false => exact asks (.inr ⟨rfl, hf⟩)
  | rescan =>
    cases hs : s.pending.kind.isSlash with
    | true =>
      simp only [perform?, rescan_inMode_of_isSlash hs, Option.map_map]
      rfl
    | false =>
      have hs' : (s.inMode m).pending.kind.isSlash = false := (Kind.isSlash_inMode m _).trans hs
      simp only [perform?, rescan_of_not_isSlash hs, rescan_of_not_isSlash hs', Option.map_some]
  | setStrict => cases hc

theorem start_inMode [WideConversion] (m : Bool) (settings : Settings) (source : String) :
    start (settings.inMode m) source = (start settings source).map (Session.inMode m) := by
  rw [start, Reading.ofPlace_inMode]
  simp only [start, Reading.inMode]
  cases (Reading.ofPlace settings (.start source.toList)).result <;> rfl

/-! ## Runs in a mode -/

/-- The calls of a run that do not set the mode. -/
def queries (es : List Event) : List Call :=
  (es.map Event.call).filter Call.isQuery

theorem queries_append (es : List Event) (c : Call) (a : Answer) :
    queries (es ++ [⟨c, a⟩]) = if c.isQuery then queries es ++ [c] else queries es := by
  simp only [queries, List.map_append, List.filter_append, List.map_cons, List.map_nil, List.filter_cons,
    List.filter_nil]
  split <;> simp

variable [WideConversion]

/-- Without the calls that set the mode, a run is a run in any one mode. -/
theorem Run.inMode {s₀ s : Session} {es : List Event} (h : Run s₀ es s) (m : Bool) :
    ∃ ds, Run (s₀.inMode m) ds (s.inMode m) ∧ ds.map Event.call = queries es := by
  induction h with
  | start => exact ⟨[], .start, rfl⟩
  | @step es s s' c a _ hp ih =>
    obtain ⟨ds, hd, hcalls⟩ := ih
    rw [queries_append]
    cases hc : c.isQuery with
    | true =>
      have hm := perform?_inMode hc m s
      rw [hp, Option.map_some, Option.map_eq_some_iff] at hm
      obtain ⟨⟨a', _⟩, hp', rfl⟩ := hm
      exact ⟨ds ++ [⟨c, a'⟩], .step hd hp', by simp [hcalls]⟩
    | false =>
      cases c with
      | setStrict strict =>
        cases hp
        exact ⟨ds, hd, by simpa using hcalls⟩
      | _ => cases hc

/-- The calls of a run determine where it leads. -/
theorem Run.unique {s₀ s s' : Session} {es es' : List Event} (h : Run s₀ es s) (h' : Run s₀ es' s')
    (hc : es.map Event.call = es'.map Event.call) : s = s' := by
  induction h generalizing es' s' with
  | start =>
    cases h' with
    | start => rfl
    | step => simp at hc
  | step _ hp ih =>
    cases h' with
    | start => simp at hc
    | step h' hp' =>
      rw [List.map_append, List.map_append] at hc
      obtain ⟨hc, hlast⟩ := List.append_inj' hc rfl
      obtain rfl := ih h' hc
      obtain rfl := List.cons.inj hlast |>.1
      exact congrArg Prod.snd (Option.some.inj (hp.symm.trans hp'))

/-- Runs with the same calls, but for those that set the mode, lead to sessions that are the same in any
one mode. -/
theorem inMode_eq {settings settings' : Settings} {source : String} {s₀ s₀' s s' : Session} {es es' : List Event}
    (h₀ : start settings source = .ok s₀) (h₀' : start settings' source = .ok s₀')
    (hset : settings.htmlComments = settings'.htmlComments) (hr : Run s₀ es s) (hr' : Run s₀' es' s')
    (hq : queries es = queries es') (m : Bool) : s.inMode m = s'.inMode m := by
  have hstart : s₀.inMode m = s₀'.inMode m := by
    have h := start_inMode m settings source
    have h' := start_inMode m settings' source
    rw [show settings.inMode m = settings'.inMode m by simp [Settings.inMode, hset], h', h₀, h₀'] at h
    exact (Except.ok.inj h).symm
  obtain ⟨ds, hd, hcalls⟩ := hr.inMode m
  obtain ⟨ds', hd', hcalls'⟩ := hr'.inMode m
  rw [hstart] at hd
  exact hd.unique hd' (by rw [hcalls, hcalls', hq])

end Session

end EcmaTokens
