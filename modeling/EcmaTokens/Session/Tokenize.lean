/-
The sequence of all tokens of a session, and of a source. It ends because every token but the last
takes text from the source.
-/
import EcmaTokens.Number.Wide
import EcmaTokens.Session.Basic

namespace EcmaTokens

namespace Session

variable [WideConversion]

/-- Bounds the number of tokens that a session still yields. -/
def remaining (s : Session) : Nat :=
  s.place.rest.length + if s.pending.isEof then 0 else 1

theorem remaining_lex {s s' : Session} {t : Token} (h : s.lex = (.ok t, s'))
    (ht : t.isEof = false) : s'.remaining < s.remaining := by
  unfold lex at h
  split at h
  · next t' hl =>
    cases h
    have := (Option.filter_eq_some_iff.1 hl).2
    simp [ht] at this
  · dsimp only at h
    split at h
    · cases h
    · next t' hr =>
      cases h
      have := Reading.ofPlace_progress hr
      simp only [remaining, ht, Bool.false_eq_true, if_false]
      omega

/-- Each token of the sequence leaves less to yield. -/
theorem remaining_next {s s' : Session} {t : Token} (h : s.next = (some (.ok t), s')) :
    s'.remaining < s.remaining := by
  unfold next at h
  split at h
  · cases h
  · split at h
    · cases h
    · next hl =>
      split at h
      · cases h
      · next ht =>
        cases h
        exact remaining_lex hl (by simpa using ht)

/-- The tokens up to the end of the source or the first error, and the session behind them. -/
def drain (s : Session) : List (Except Diagnostic Token) × Session :=
  match _h : s.next with
  | (none, s') => ([], s')
  | (some (.error d), s') => ([.error d], s')
  | (some (.ok t), s') =>
    let (ts, s'') := s'.drain
    (.ok t :: ts, s'')
termination_by s.remaining
decreasing_by exact remaining_next ‹_›

end Session

/-- The results up to the first error. -/
def collect {ε α : Type} : List (Except ε α) → Except ε (List α)
  | [] => .ok []
  | .error e :: _ => .error e
  | .ok a :: rs => (collect rs).map (a :: ·)

/-- All tokens of a source, or the first error in it. -/
def tokenize [WideConversion] (settings : Settings) (source : String) : Except Diagnostic (List Token) :=
  (Session.start settings source).bind fun s => collect s.drain.1

end EcmaTokens
