/-
Runs of a session: any sequence of calls, continued after failures, with what each call gave back.
A run has no call that reads a slash again once the session has been taken beyond its line.
-/
import EcmaTokens.Proofs.Session.Outcome

namespace EcmaTokens

theorem ok_of_toOption {ε α : Type} {r : Except ε α} {a : α} (h : r.toOption = some a) : r = .ok a := by
  cases r with
  | error e => cases h
  | ok b => cases h; rfl

/-! ## Calls and answers -/

/-- What a user asks of a session. -/
inductive Call where
  | lex
  | next
  /-- Read the pending slash again as a regular expression. -/
  | rescan
  | setStrict (strict : Bool)
deriving DecidableEq, Repr

/-- What a call gives back. -/
inductive Answer where
  | token (t : Token)
  | failure (d : Diagnostic)
  /-- Setting the mode gives nothing back, and neither does the sequence of tokens at its end. -/
  | nothing
deriving DecidableEq, Repr

namespace Answer

def ofResult : Except Diagnostic Token → Answer
  | .ok t => .token t
  | .error d => .failure d

def isToken : Answer → Bool
  | token _ => true
  | _ => false

def isFailure : Answer → Bool
  | failure _ => true
  | _ => false

end Answer

/-- A call with its answer. -/
structure Event where
  call : Call
  answer : Answer
deriving DecidableEq, Repr

/-- The token that a call took from the session. Reading a slash again takes none. -/
def Event.taken? : Event → Option Token
  | ⟨.lex, .token t⟩ => some t
  | ⟨.next, .token t⟩ => some t
  | _ => none

theorem Event.answer_of_taken? {e : Event} {t : Token} (h : e.taken? = some t) : e.answer = .token t := by
  unfold Event.taken? at h
  split at h
  · cases h; rfl
  · cases h; rfl
  · cases h

namespace Session

section

variable [WideConversion]

/-- Performs a call. `none` if it reads a slash again that the session has been taken beyond. -/
def perform? (s : Session) : Call → Option (Answer × Session)
  | .lex => some (.ofResult s.lex.1, s.lex.2)
  | .next => some ((s.next.1.map .ofResult).getD .nothing, s.next.2)
  | .rescan => s.rescanRegExp?.map fun (r, s') => (.ofResult r, s')
  | .setStrict strict => some (.nothing, s.setStrict strict)

/-- A run from the session `s₀`: its events and the session behind them. -/
inductive Run (s₀ : Session) : List Event → Session → Prop
  | start : Run s₀ [] s₀
  | step {es : List Event} {s s' : Session} {c : Call} {a : Answer} :
      Run s₀ es s → s.perform? c = some (a, s') → Run s₀ (es ++ [⟨c, a⟩]) s'

/-- Performs calls one after another. -/
def performAll? (s : Session) : List Call → Option (List Event × Session)
  | [] => some ([], s)
  | c :: cs => do
    let (a, s') ← s.perform? c
    let (es, s'') ← s'.performAll? cs
    return (⟨c, a⟩ :: es, s'')

theorem Run.append {s₀ s s' : Session} {es es' : List Event} (h : Run s₀ es s) (h' : Run s es' s') :
    Run s₀ (es ++ es') s' := by
  induction h' with
  | start => rwa [List.append_nil]
  | step _ hp ih => rw [← List.append_assoc]; exact .step ih hp

/-- Calls that can be performed one after another make up a run. -/
theorem run_of_performAll? {s s' : Session} {cs : List Call} {es : List Event}
    (h : s.performAll? cs = some (es, s')) : Run s es s' := by
  induction cs generalizing s es with
  | nil => cases h; exact .start
  | cons c cs ih =>
    simp only [performAll?, Option.bind_eq_bind, Option.bind_eq_some_iff, Option.pure_def] at h
    obtain ⟨⟨a, s₁⟩, hp, ⟨es₁, s₂⟩, hr, heq⟩ := h
    cases heq
    exact Run.append (.step .start hp) (ih hr)

theorem calls_of_performAll? {s s' : Session} {cs : List Call} {es : List Event}
    (h : s.performAll? cs = some (es, s')) : es.map Event.call = cs := by
  induction cs generalizing s es with
  | nil => cases h; rfl
  | cons c cs ih =>
    simp only [performAll?, Option.bind_eq_bind, Option.bind_eq_some_iff, Option.pure_def] at h
    obtain ⟨⟨a, s₁⟩, -, ⟨es₁, s₂⟩, hr, heq⟩ := h
    cases heq
    rw [List.map_cons, ih hr]

/-- Performing calls on a source shows that there is a run of them, and what holds behind it. -/
theorem exists_run {settings : Settings} {source : String} {cs : List Call} {P : List Event × Session → Bool}
    (h : ((start settings source).toOption.bind fun s₀ => (s₀.performAll? cs).map P) = some true) :
    ∃ s₀ es s, start settings source = .ok s₀ ∧ Run s₀ es s ∧ es.map Event.call = cs ∧ P (es, s) = true := by
  obtain ⟨s₀, h₀, h⟩ := Option.bind_eq_some_iff.1 h
  obtain ⟨⟨es, s⟩, hr, hP⟩ := Option.map_eq_some_iff.1 h
  exact ⟨s₀, es, s, ok_of_toOption h₀, run_of_performAll? hr, calls_of_performAll? hr, hP⟩

/-! ## The start -/

/-- What is read first from a source. -/
def firstReading (settings : Settings) (source : String) : Reading :=
  .ofPlace settings (.start source.toList)

theorem start_ok {settings : Settings} {source : String} {s : Session} (h : start settings source = .ok s) :
    ∃ t, (firstReading settings source).result = .ok t ∧
      s = ⟨settings, (firstReading settings source).stop, t, (firstReading settings source).origin,
        (firstReading settings source).lineBreak, none, 0, false⟩ := by
  unfold start at h
  dsimp only at h
  rcases hr : (firstReading settings source).result with d | t
  · rw [firstReading] at hr; rw [hr] at h; cases h
  · refine ⟨t, rfl, ?_⟩
    rw [firstReading] at hr; rw [hr] at h; cases h; rfl

theorem start_error {settings : Settings} {source : String} {d : Diagnostic}
    (h : start settings source = .error d) : (firstReading settings source).result = .error d := by
  unfold start at h
  dsimp only at h
  rcases hr : (firstReading settings source).result with d' | t
  · rw [firstReading] at hr; rw [hr] at h; cases h; rfl
  · rw [firstReading] at hr; rw [hr] at h; cases h

/-! ## What a call does -/

/-- The call asks for the next token. -/
def Asks (s : Session) (c : Call) : Prop :=
  c = .lex ∨ c = .next ∧ s.finished = false

/-- What a call that asks for the next token gives back of what `lex` gives. The sequence of tokens
leaves out the end of the source. -/
def deliver (c : Call) : Except Diagnostic Token → Answer
  | .ok t => if c = .next ∧ t.isEof then .nothing else .token t
  | .error d => .failure d

/-- The session with the sequence of tokens finished, if the answer is not a token of it. -/
def settle (s : Session) (c : Call) (a : Answer) : Session :=
  { s with finished := s.finished || (c = .next && !a.isToken) }

/-- What a call gives back and leaves behind. -/
inductive Effect (s : Session) : Event → Session → Prop
  | setStrict (strict : Bool) : Effect s ⟨.setStrict strict, .nothing⟩ (s.setStrict strict)
  | exhausted : s.finished = true → Effect s ⟨.next, .nothing⟩ s
  | lexed {c : Call} {r : Except Diagnostic Token} {s' : Session} : s.Asks c → s.Lexed r s' →
      Effect s ⟨c, deliver c r⟩ (s'.settle c (deliver c r))
  | rescanned {r : Except Diagnostic Token} {s' : Session} : s.Rescanned r s' →
      Effect s ⟨.rescan, .ofResult r⟩ s'

end

theorem settle_lex (s : Session) (a : Answer) : s.settle .lex a = s := by
  cases s; simp [settle]

theorem deliver_lex (r : Except Diagnostic Token) : deliver .lex r = .ofResult r := by
  cases r <;> simp [deliver, Answer.ofResult]

/-- A token that is delivered is taken, but for the end of the source in the sequence. -/
theorem taken?_deliver {s : Session} {c : Call} (hc : s.Asks c) (t : Token) :
    Event.taken? ⟨c, deliver c (.ok t)⟩ = if c = .next ∧ t.isEof = true then none else some t := by
  rcases hc with rfl | ⟨rfl, -⟩
  · simp [deliver, Event.taken?]
  · by_cases hk : t.isEof = true <;> simp [deliver, hk, Event.taken?]

theorem taken?_of_error {s : Session} {c : Call} (hc : s.Asks c) (d : Diagnostic) :
    Event.taken? ⟨c, deliver c (.error d)⟩ = none := by
  rcases hc with rfl | ⟨rfl, -⟩ <;> rfl

variable [WideConversion]

theorem Lexed.finished_eq {s s' : Session} {r : Except Diagnostic Token} (h : Lexed s r s') :
    s'.finished = s.finished := by
  cases h <;> rfl

theorem perform?_next_of_lex {s s' : Session} {r : Except Diagnostic Token} (hf : s.finished = false)
    (hl : s.lex = (r, s')) (hf' : s'.finished = false) :
    s.perform? .next = some (deliver .next r, s'.settle .next (deliver .next r)) := by
  cases r with
  | error d => simp [perform?, next, hf, hl, deliver, Answer.ofResult, settle, Answer.isToken]
  | ok t =>
    cases ht : t.isEof with
    | true => simp [perform?, next, hf, hl, ht, deliver, settle, Answer.isToken]
    | false =>
      have hs : s'.settle .next (.token t) = s' := by
        cases s'; simp_all [settle, Answer.isToken]
      simp [perform?, next, hf, hl, ht, deliver, Answer.ofResult, hs]

theorem perform?_of_asks {s : Session} {c : Call} (hc : s.Asks c) :
    s.perform? c = some (deliver c s.lex.1, s.lex.2.settle c (deliver c s.lex.1)) := by
  rcases hc with rfl | ⟨rfl, hf⟩
  · rw [settle_lex, deliver_lex]; rfl
  · exact perform?_next_of_lex hf rfl (s.lexed.finished_eq.trans hf)

theorem next_of_finished {s : Session} (hf : s.finished = true) : s.next = (none, s) := by
  simp [next, hf]

/-- Every call has one of the effects. -/
theorem effect {s s' : Session} {c : Call} {a : Answer} (h : s.perform? c = some (a, s')) :
    Effect s ⟨c, a⟩ s' := by
  have asks : s.Asks c → Effect s ⟨c, a⟩ s' := by
    intro hc
    rw [perform?_of_asks hc] at h
    cases h
    exact .lexed hc s.lexed
  cases c with
  | lex => exact asks (.inl rfl)
  | next =>
    cases hf : s.finished with
    | true =>
      simp only [perform?, next_of_finished hf] at h
      cases h
      exact .exhausted hf
    | false => exact asks (.inr ⟨rfl, hf⟩)
  | rescan =>
    obtain ⟨⟨r, s₁⟩, hr, heq⟩ := Option.map_eq_some_iff.1 h
    cases heq
    exact .rescanned (rescanned hr)
  | setStrict strict => cases h; exact .setStrict strict

/-- A property that holds at the start and that every effect keeps holds after every run. -/
theorem Run.keeps {s₀ s : Session} {es : List Event} (h : Run s₀ es s) (I : List Event → Session → Prop)
    (h₀ : I [] s₀) (hs : ∀ es s e s', I es s → Effect s e s' → I (es ++ [e]) s') : I es s := by
  induction h with
  | start => exact h₀
  | step _ hp ih => exact hs _ _ _ _ ih (effect hp)

end Session

end EcmaTokens
