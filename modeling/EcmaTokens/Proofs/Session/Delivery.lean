/-
What a session hands out, call by call. The tokens that are read one after another come out in their
order, although each waits until the one behind it has been read. Where a malformed token ends them,
the token in front of it is held back and stays pending. In every run the number of tokens handed
out takes the end of the source once.
-/
import EcmaTokens.Proofs.Session.Sequence

namespace EcmaTokens

/-! ## One token after another -/

/-- The tokens read one after another from a place, and what ends them: the token at the end of the
source, or the first diagnostic. -/
def scanAll [WideConversion] (settings : Settings) (p : Place) : List Token × Except Diagnostic Token :=
  match _h : (Reading.ofPlace settings p).result with
  | .error d => ([], .error d)
  | .ok t =>
    if _ht : t.isEof then ([], .ok t)
    else (scanAll settings (Reading.ofPlace settings p).stop).map (t :: ·) id
termination_by p.rest.length
decreasing_by
  have := Reading.ofPlace_progress _h
  rw [if_neg _ht] at this
  omega

/-- A token that was read, and all that follow it from a place. -/
def scanBehind [WideConversion] (settings : Settings) (t : Token) (p : Place) : List Token × Except Diagnostic Token :=
  if t.isEof then ([], .ok t) else (scanAll settings p).map (t :: ·) id

section Scan

variable [WideConversion] {settings : Settings} {p : Place}

theorem scanAll_of_error {d : Diagnostic} (h : (Reading.ofPlace settings p).result = .error d) :
    scanAll settings p = ([], .error d) := by
  rw [scanAll]
  split <;> simp_all

theorem scanAll_of_ok {t : Token} (h : (Reading.ofPlace settings p).result = .ok t) :
    scanAll settings p = scanBehind settings t (Reading.ofPlace settings p).stop := by
  rw [scanAll, scanBehind]
  split <;> simp_all

/-- The scan ends at the end of the source, unless a diagnostic ends it. -/
theorem isEof_scanAll {eof : Token} (h : (scanAll settings p).2 = .ok eof) : eof.isEof = true := by
  fun_induction scanAll settings p with
  | case1 => cases h
  | case2 p t _ ht => cases h; exact ht
  | case3 p t _ _ ih => exact ih h

/-- The tokens of a text are all those of the scan, unless a diagnostic ends it. -/
theorem readAll_eq_scanAll (settings : Settings) (p : Place) :
    readAll settings p = (scanAll settings p).2.map fun _ => (scanAll settings p).1 := by
  fun_induction readAll settings p with
  | case1 p d hr => rw [scanAll_of_error hr]; rfl
  | case2 p t hr ht => rw [scanAll_of_ok hr, scanBehind, if_pos ht]; rfl
  | case3 p t hr ht ih =>
    rw [scanAll_of_ok hr, scanBehind, if_neg ht, ih]
    simp only [Prod.map]
    cases (scanAll settings (Reading.ofPlace settings p).stop).2 <;> rfl

end Scan

namespace Session

/-! ## What lies ahead -/

/-- The session has the tokens `ts` to hand out, and then `last`. -/
structure Ahead [WideConversion] (s : Session) (ts : List Token) (last : Except Diagnostic Token) : Prop where
  running : s.atEnd? = none
  eof : s.pending.isEof = true → s.place.rest = []
  scan : scanBehind s.settings s.pending s.place = (ts, last)

variable {s : Session} {t eof : Token} {ts : List Token} {d : Diagnostic} {last : Except Diagnostic Token}

namespace Ahead

variable [WideConversion]

/-- Reading a token brings the session one step further. -/
theorem handOut (ha : s.pending.isEof = false) (hr : s.reading.result = .ok t) :
    (s.handOut t).Ahead (scanAll s.settings s.place).1 (scanAll s.settings s.place).2 := by
  refine ⟨?_, s.outcome.stop_rest_of_eof hr, (scanAll_of_ok hr).symm⟩
  show (some s.pending).filter Token.isEof = none
  rw [Option.filter_some, ha]
  rfl

/-- What lies ahead begins with the pending token. -/
theorem pending_cons (h : s.Ahead (t :: ts) last) :
    s.pending.isEof = false ∧ s.pending = t ∧ scanAll s.settings s.place = (ts, last) := by
  have hs := h.scan
  rw [scanBehind] at hs
  split at hs
  · cases hs
  · next hk =>
    obtain ⟨hts, hl⟩ := Prod.mk.inj hs
    obtain ⟨ht, hts⟩ := List.cons.inj hts
    exact ⟨by simpa using hk, ht, Prod.ext hts hl⟩

theorem pending_nil (h : s.Ahead [] last) : s.pending.isEof = true ∧ last = .ok s.pending := by
  have hs := h.scan
  rw [scanBehind] at hs
  split at hs
  · next hk => exact ⟨hk, (Prod.mk.inj hs).2.symm⟩
  · cases (Prod.mk.inj hs).1

/-- What a call to `lex` does with what lies ahead. -/
inductive Lexes (s : Session) : List Token → Except Diagnostic Token → Prop
  /-- The first token is handed out and the rest lies ahead. -/
  | token {t u : Token} {ts : List Token} {last : Except Diagnostic Token} :
      s.lex = (.ok t, s.handOut u) → t.isEof = false → (s.handOut u).Ahead ts last → Lexes s (t :: ts) last
  /-- The one token that is left is held back, as the text behind it is malformed. -/
  | withheld {t : Token} {d : Diagnostic} :
      s.lex = (.error d, s.stuck) → s.pending = t → Lexes s [t] (.error d)
  /-- The end of the source is handed out. -/
  | eof {t u : Token} :
      s.lex = (.ok t, s.handOut u) → t.isEof = true → (s.handOut u).atEnd? = some t → Lexes s [] (.ok t)

theorem lexes (h : s.Ahead ts last) : Lexes s ts last := by
  cases ts with
  | nil =>
    obtain ⟨hk, rfl⟩ := h.pending_nil
    obtain ⟨u, hu, -⟩ := Reading.eof_at_end s.settings (h.eof hk)
    refine .eof (lex_of_ok h.running hu) hk ?_
    show (some s.pending).filter Token.isEof = some s.pending
    rw [Option.filter_some, hk]
    rfl
  | cons t ts =>
    obtain ⟨hk, rfl, hs⟩ := h.pending_cons
    cases hr : s.reading.result with
    | error d =>
      rw [scanAll_of_error hr] at hs
      cases hs
      exact .withheld (lex_of_error h.running hr) rfl
    | ok u =>
      have hu := Ahead.handOut hk hr
      rw [hs] at hu
      exact .token (lex_of_ok h.running hr) hk hu

end Ahead

/-! ## Calls to `lex` -/

section

variable [WideConversion]

/-- The session after `n` calls to `lex`. -/
def afterLex (s : Session) : Nat → Session
  | 0 => s
  | n + 1 => s.lex.2.afterLex n

/-- The session after `n` calls for the next token of the sequence. -/
def afterNext (s : Session) : Nat → Session
  | 0 => s
  | n + 1 => s.next.2.afterNext n

theorem afterLex_of_atEnd (h : s.atEnd? = some t) (n : Nat) : s.afterLex n = s := by
  induction n with
  | zero => rfl
  | succ n ih => rw [afterLex, lex_of_atEnd h]; exact ih

theorem afterNext_of_finished (h : s.finished = true) (n : Nat) : s.afterNext n = s := by
  induction n with
  | zero => rfl
  | succ n ih => rw [afterNext, next_of_finished h]; exact ih

/-- Without malformed text `lex` hands out the tokens, and then the end of the source again and again. -/
theorem lex_afterLex (h : s.Ahead ts (.ok eof)) (n : Nat) :
    (s.afterLex n).lex.1 = .ok (ts[n]?.getD eof) ∧ (s.afterLex n).count = s.count + min n (ts.length + 1) := by
  induction n generalizing s ts with
  | zero =>
    cases h.lexes with
    | token hl => exact ⟨by rw [afterLex, hl]; rfl, rfl⟩
    | eof hl => exact ⟨by rw [afterLex, hl]; rfl, rfl⟩
  | succ n ih =>
    cases h.lexes with
    | @token t u ts _ hl _ hu =>
      obtain ⟨h₁, h₂⟩ := ih hu
      rw [afterLex, hl]
      refine ⟨by rw [h₁]; rfl, ?_⟩
      rw [h₂, show (s.handOut u).count = s.count + 1 from rfl, List.length_cons]
      omega
    | @eof _ u hl _ hu =>
      rw [afterLex, hl, afterLex_of_atEnd hu, lex_of_atEnd hu]
      refine ⟨rfl, ?_⟩
      rw [show (s.handOut u).count = s.count + 1 from rfl, List.length_nil]
      omega

/-! ## The sequence of tokens -/

/-- Without malformed text the sequence yields the tokens, and then nothing any more. -/
theorem next_afterNext (h : s.Ahead ts (.ok eof)) (hf : s.finished = false) (n : Nat) :
    (s.afterNext n).next.1 = ts[n]?.map .ok ∧ (s.afterNext n).count = s.count + min n (ts.length + 1) := by
  induction n generalizing s ts with
  | zero =>
    cases h.lexes with
    | token hl hk => exact ⟨by simp [afterNext, next, hf, hl, hk], rfl⟩
    | eof hl hk => exact ⟨by simp [afterNext, next, hf, hl, hk], rfl⟩
  | succ n ih =>
    cases h.lexes with
    | @token t u ts _ hl hk hu =>
      have hn : s.next.2 = s.handOut u := by simp [next, hf, hl, hk]
      obtain ⟨h₁, h₂⟩ := ih hu hf
      rw [afterNext, hn]
      refine ⟨by rw [h₁]; rfl, ?_⟩
      rw [h₂, show (s.handOut u).count = s.count + 1 from rfl, List.length_cons]
      omega
    | @eof _ u hl hk _ =>
      have hn : s.next.2 = { s.handOut u with finished := true } := by simp [next, hf, hl, hk]
      rw [afterNext, hn, afterNext_of_finished rfl, next_of_finished rfl]
      refine ⟨rfl, ?_⟩
      show s.count + 1 = _
      rw [List.length_nil]
      omega

/-- Where a malformed token ends them, the sequence yields all tokens but the last, then the diagnostic,
and then nothing any more. The last token stays pending. -/
theorem next_afterNext_error (h : s.Ahead ts (.error d)) (hf : s.finished = false) (n : Nat) :
    (s.afterNext n).next.1 = (ts.dropLast.map Except.ok ++ [.error d])[n]? ∧
      (s.afterNext n).count = s.count + min n (ts.length - 1) ∧
      (ts.length ≤ n + 1 → ts.getLast? = some (s.afterNext n).pending) := by
  induction n generalizing s ts with
  | zero =>
    cases h.lexes with
    | @token t u ts _ hl hk hu =>
      -- a token behind the first one is held back, so there is one
      cases ts with
      | nil => cases hu.pending_nil.2
      | cons v ts => exact ⟨by simp [afterNext, next, hf, hl, hk], rfl, fun hlen => absurd hlen (by simp)⟩
    | withheld hl hp => exact ⟨by simp [afterNext, next, hf, hl], rfl, fun _ => by rw [afterNext, hp]; rfl⟩
  | succ n ih =>
    cases h.lexes with
    | @token t u ts _ hl hk hu =>
      have hn : s.next.2 = s.handOut u := by simp [next, hf, hl, hk]
      obtain ⟨h₁, h₂, h₃⟩ := ih hu hf
      rw [afterNext, hn]
      cases ts with
      | nil => cases hu.pending_nil.2
      | cons v ts =>
        refine ⟨by rw [h₁]; rfl, ?_, fun hlen => ?_⟩
        · rw [h₂, show (s.handOut u).count = s.count + 1 from rfl]
          simp only [List.length_cons]
          omega
        · rw [List.getLast?_cons_cons]
          exact h₃ (by simpa using hlen)
    | @withheld t _ hl hp =>
      have hn : s.next.2 = { s.stuck with finished := true } := by simp [next, hf, hl]
      rw [afterNext, hn, afterNext_of_finished rfl, next_of_finished rfl]
      exact ⟨rfl, by simp [stuck], fun _ => by rw [← hp]; rfl⟩

end

/-! ## The count -/

/-- The number of tokens that a run handed out, the end of the source left aside. -/
def tokenCount (es : List Event) : Nat :=
  ((es.filterMap Event.taken?).filter fun t => !t.isEof).length

theorem tokenCount_append (es : List Event) (e : Event) :
    tokenCount (es ++ [e]) = tokenCount es + if e.taken?.any (fun t => !t.isEof) then 1 else 0 := by
  rw [tokenCount, List.filterMap_append, List.filter_append, List.length_append]
  congr 1
  cases he : e.taken? with
  | none => simp [he]
  | some t => cases hk : t.isEof <;> simp [he, hk]

/-- A delivered token counts unless it is the end of the source. -/
theorem tokenCount_deliver {c : Call} (hc : s.Asks c) (es : List Event) (t : Token) :
    tokenCount (es ++ [⟨c, deliver c (.ok t)⟩]) = tokenCount es + if t.isEof then 0 else 1 := by
  rw [tokenCount_append, taken?_deliver hc]
  cases hk : t.isEof with
  | true => split <;> simp [hk]
  | false => simp [hk]

section

variable [WideConversion]

/-- In every run the count is the number of tokens handed out, and one more once the end of the source
has been. -/
theorem count_run {settings : Settings} {source : String} {s₀ : Session} {es : List Event}
    (h₀ : start settings source = .ok s₀) (hr : Run s₀ es s) :
    s.count = tokenCount es + if s.atEnd?.isSome then 1 else 0 := by
  refine hr.keeps (fun es s => s.count = tokenCount es + if s.atEnd?.isSome then 1 else 0) ?_ ?_
  · obtain ⟨t, -, rfl⟩ := start_ok h₀
    rfl
  · intro es s e s' ih he
    cases he with
    | setStrict strict => rw [tokenCount_append]; exact ih
    | exhausted => rw [tokenCount_append]; exact ih
    | @lexed c r s₁ hc hr =>
      show s₁.count = _ + if s₁.atEnd?.isSome then 1 else 0
      cases hr with
      | @atEnd t ht =>
        rw [tokenCount_deliver hc, (Option.filter_eq_some_iff.1 ht).2]
        exact ih
      | stuck => rw [tokenCount_append, taken?_of_error hc]; exact ih
      | @handOut t ha =>
        rw [tokenCount_deliver hc]
        show s.count + 1 = _ + if ((some s.pending).filter Token.isEof).isSome then 1 else 0
        rw [ha] at ih
        cases hk : s.pending.isEof <;> simp [hk, Option.filter_some] <;> simpa using ih
    | rescanned hr =>
      rw [tokenCount_append]
      cases hr <;> exact ih

/-! ## Delivery -/

/-- Every call hands out one of the tokens `ts`, then the end of the source: `lex` for ever, the
sequence as its end. -/
structure DeliversAll (s : Session) (ts : List Token) (eof : Token) : Prop where
  lex : ∀ n, (s.afterLex n).lex.1 = .ok (ts[n]?.getD eof)
  lexCount : ∀ n, (s.afterLex n).count = min n (ts.length + 1)
  next : ∀ n, (s.afterNext n).next.1 = ts[n]?.map .ok
  nextCount : ∀ n, (s.afterNext n).count = min n (ts.length + 1)

/-- The sequence yields the tokens `ts` but for the last, which stays pending, then the diagnostic, and
then nothing any more. -/
structure DeliversUntil (s : Session) (ts : List Token) (d : Diagnostic) : Prop where
  next : ∀ n, (s.afterNext n).next.1 = (ts.dropLast.map Except.ok ++ [.error d])[n]?
  pending : ∀ n, ts.length ≤ n + 1 → ts.getLast? = some (s.afterNext n).pending
  count : ∀ n, (s.afterNext n).count = min n (ts.length - 1)

/-- What a session starts with is what is read one after another from the beginning. -/
theorem Ahead.start {settings : Settings} {source : String} {s₀ : Session}
    (h₀ : Session.start settings source = .ok s₀) :
    s₀.Ahead (scanAll settings (.start source.toList)).1 (scanAll settings (.start source.toList)).2 := by
  have o : (firstReading settings source).Outcome settings (.start source.toList) := Reading.outcome _ _
  obtain ⟨t, ht, rfl⟩ := start_ok h₀
  exact ⟨rfl, o.stop_rest_of_eof ht, (scanAll_of_ok ht).symm⟩

end

/-- A session refines the plain scan of its source. If the scan ends at the end of the source, the
session starts and delivers all tokens; if it ends with a diagnostic, the session does not start
without a token in front of it, and else delivers until there. In every run the count is the number
of tokens handed out, the end of the source taken once. -/
theorem delivery_refines_scan [WideConversion] (settings : Settings) (source : String) :
    (match scanAll settings (.start source.toList) with
      | (ts, .ok eof) => eof.isEof = true ∧ tokenize settings source = .ok ts ∧
          ∃ s₀, start settings source = .ok s₀ ∧ s₀.DeliversAll ts eof
      | ([], .error d) => tokenize settings source = .error d ∧ start settings source = .error d
      | (t :: ts, .error d) => tokenize settings source = .error d ∧
          ∃ s₀, start settings source = .ok s₀ ∧ s₀.DeliversUntil (t :: ts) d) ∧
    ∀ s₀ es s, start settings source = .ok s₀ → Run s₀ es s →
      s.count = tokenCount es + if s.atEnd?.isSome then 1 else 0 := by
  refine ⟨?_, fun s₀ es s => count_run⟩
  rw [tokenize_eq_readAll, readAll_eq_scanAll]
  cases h₀ : start settings source with
  | error d =>
    rw [scanAll_of_error (start_error h₀)]
    exact ⟨rfl, rfl⟩
  | ok s₀ =>
    have h := Ahead.start h₀
    obtain ⟨hcount, hf⟩ : s₀.count = 0 ∧ s₀.finished = false := by
      obtain ⟨t, -, rfl⟩ := start_ok h₀
      exact ⟨rfl, rfl⟩
    have hend : ∀ eof, (scanAll settings (.start source.toList)).2 = .ok eof → eof.isEof = true :=
      fun _ => isEof_scanAll
    generalize scanAll settings (.start source.toList) = r at h hend
    rcases r with ⟨ts, d | eof⟩
    · have hnext := next_afterNext_error h hf
      cases ts with
      | nil => cases h.pending_nil.2
      | cons t ts =>
        exact ⟨rfl, s₀, rfl, fun n => (hnext n).1, fun n => (hnext n).2.2, fun n => by
          rw [(hnext n).2.1, hcount, Nat.zero_add]⟩
    · have hlex := lex_afterLex h
      have hnext := next_afterNext h hf
      rw [hcount] at hlex hnext
      simp only [Nat.zero_add] at hlex hnext
      exact ⟨hend eof rfl, rfl, s₀, rfl, fun n => (hlex n).1, fun n => (hlex n).2, fun n => (hnext n).1,
        fun n => (hnext n).2⟩

/-- Two tokens in front of a malformed one, of which the second is never handed out. -/
theorem delivery_refines_scan_withheld :
    ∃ ts d s₀, scanAll {} (.start "a b\n#".toList) = (ts, .error d) ∧ ts.length = 2 ∧
      start {} "a b\n#" = .ok s₀ ∧ s₀.DeliversUntil ts d ∧ tokenize {} "a b\n#" = .error d ∧
      ∃ es s, Run s₀ es s ∧ es.map Event.call = [.next, .lex, .next] ∧ s.finished = true ∧
        s.count = tokenCount es + if s.atEnd?.isSome then 1 else 0 := by
  have hlen : (scanAll {} (.start "a b\n#".toList)).1.length = 2 := by decide +kernel
  have hd : (scanAll {} (.start "a b\n#".toList)).2.toOption = none := by decide +kernel
  have hrun : ((start {} "a b\n#").toOption.bind fun s₀ =>
      (s₀.performAll? [.next, .lex, .next]).map fun r => r.2.finished) = some true := by decide +kernel
  obtain ⟨s₀, es, s, h₀, hr, hcalls, hfin⟩ := exists_run hrun
  obtain ⟨hmain, hcount⟩ := delivery_refines_scan {} "a b\n#"
  rcases hs : scanAll {} (.start "a b\n#".toList) with ⟨ts, d | eof⟩
  · rw [hs] at hmain hlen
    cases ts with
    | nil => cases hlen
    | cons t ts =>
      obtain ⟨htok, s₀', h₀', hdel⟩ := hmain
      obtain rfl : s₀ = s₀' := Except.ok.inj (h₀.symm.trans h₀')
      exact ⟨_, d, s₀, rfl, hlen, h₀, hdel, htok, es, s, hr, hcalls, hfin, hcount s₀ es s h₀ hr⟩
  · rw [hs] at hd
    cases hd

end Session

end EcmaTokens
