/-
Regular expression literals, read with a checked cursor, from their opening slash to their last flag. They stay on
their line, and what is read is what the recogniser of these literals reads.
-/
import EcmaTokens.Proofs.Checked.Cursor
import EcmaTokens.Proofs.Lexeme.RegularExpression

namespace EcmaTokens

namespace Checked

/-- Goes over the next character of the body, with the one behind a backslash, or over the closing slash. The result
tells whether a class is open. -/
def regExpRound (inClass : Bool) : Checked (Turn Bool Unit) := do
  match ← peek with
  | some c =>
    if isLineTerminator c then malformed .unterminatedRegExp
    else
      let _ ← bump
      if c == '\\' then
        match ← bumpIf fun d => !isLineTerminator d with
        | some _ => return .again inClass
        | none => malformed .unterminatedRegExp
      else if c == '[' then return .again true
      else if c == ']' then return .again false
      else if c == '/' && !inClass then return .done ()
      else return .again inClass
  | none => malformed .unterminatedRegExp

/-- Goes over what is left of the body, up to and including the closing slash. -/
def regExpBody (inClass : Bool) : Checked Unit :=
  loop regExpRound inClass

/-- Goes over a literal from its opening slash. -/
def regExp : Checked Unit := do
  let _ ← bump
  regExpBody false
  bumpWhile fun c => c == '\\' || isIdentifierPart c

section Literals

open EcmaTokens.RegularExpression

variable {source : List Char} {b : Bool} {p : Place}

theorem regExpRound_nil (hp : p.Within source) (h : p.rest = []) (inClass : Bool) :
    regExpRound inClass (p.cursor source b) = (Scan.malformed 0).settle source b .unterminatedRegExp p := by
  rw [regExpRound, bind_of_ok (peek_at hp), h]
  exact malformed_at hp

theorem regExpRound_terminator (hp : p.Within source) {c : Char} {cs : List Char} (h : p.rest = c :: cs)
    (hc : isLineTerminator c = true) (inClass : Bool) :
    regExpRound inClass (p.cursor source b) = (Scan.malformed 0).settle source b .unterminatedRegExp p := by
  rw [regExpRound, bind_of_ok (peek_at hp), h, List.head?_cons]
  dsimp only
  rw [if_pos hc, malformed_at hp]

/-- Nothing is left on the line behind a backslash. -/
theorem regExpRound_backslash_end (hp : p.Within source) {cs : List Char} (h : p.rest = '\\' :: cs)
    (hcs : cs.head?.any (fun d => !isLineTerminator d) = false) (inClass : Bool) :
    regExpRound inClass (p.cursor source b) = (Scan.malformed 1).settle source b .unterminatedRegExp p := by
  have hnext : (p.advance 1).rest.head?.any (fun d => !isLineTerminator d) = false := by
    rw [Place.rest_advance, h]
    exact hcs
  rw [regExpRound, bind_of_ok (peek_at hp), h, List.head?_cons]
  dsimp only
  rw [if_neg (by decide), bind_of_ok (bump_at hp h rfl), if_pos (by decide),
    bind_of_ok (bumpIf_not (hp.advance 1) hnext)]
  exact malformed_advance hp 1

theorem regExpRound_backslash (hp : p.Within source) {d : Char} {cs : List Char} (h : p.rest = '\\' :: d :: cs)
    (hd : isLineTerminator d = false) (inClass : Bool) : regExpRound inClass (p.cursor source b) =
      some (.ok (.again inClass), (p.advance 2).cursor source b) := by
  have hnext : (p.advance 1).rest = d :: cs := Place.rest_next h
  have hone : CutsClean p.rest 1 := Place.cutsClean_next h rfl
  rw [regExpRound, bind_of_ok (peek_at hp), h, List.head?_cons]
  dsimp only
  rw [if_neg (by decide), bind_of_ok (bump_at hp h rfl), if_pos (by decide),
    bind_of_ok (bumpIf_at (hp.advance 1) hnext hd (by simp [hd])), ← Place.advance_add hone]
  rfl

/-- A character of the line by itself. -/
theorem regExpRound_char (hp : p.Within source) {c : Char} {cs : List Char} (h : p.rest = c :: cs)
    (hc : isLineTerminator c = false) (hb : ¬ (c == '\\') = true) (inClass : Bool) :
    regExpRound inClass (p.cursor source b) =
      some (.ok (if c == '[' then .again true else if c == ']' then .again false
        else if c == '/' && !inClass then .done () else .again inClass), (p.advance 1).cursor source b) := by
  rw [regExpRound, bind_of_ok (peek_at hp), h, List.head?_cons]
  dsimp only
  rw [if_neg (by simp [hc]), bind_of_ok (bump_at hp h hc), if_neg hb]
  split
  · rfl
  split
  · rfl
  split <;> rfl

theorem regExpBody_at (hp : p.Within source) (inClass : Bool) :
    regExpBody inClass (p.cursor source b) = (scanBody inClass p.rest).settle source b .unterminatedRegExp p := by
  induction hlen : p.rest.length using Nat.strong_induction_on generalizing p inClass with
  | _ len ih =>
  subst hlen
  cases hr : p.rest with
  | nil => exact loop_of_error (regExpRound_nil hp hr inClass)
  | cons c cs =>
    have hne : p.rest ≠ [] := by simp [hr]
    rw [scanBody.eq_def]
    dsimp only
    by_cases hline : isLineTerminator c = true
    · rw [if_pos hline]
      exact loop_of_error (regExpRound_terminator hp hr hline inClass)
    have hplain : isLineTerminator c = false := by simpa using hline
    have hone : CutsClean p.rest 1 := Place.cutsClean_next hr hplain
    have hcs : (p.advance 1).rest = cs := Place.rest_next hr
    rw [if_neg hline]
    by_cases hb : (c == '\\') = true
    · obtain rfl : c = '\\' := by simpa using hb
      rw [if_pos hb]
      cases cs with
      | nil => exact loop_of_error (regExpRound_backslash_end hp hr rfl inClass)
      | cons d ds =>
        dsimp only
        by_cases hd : isLineTerminator d = true
        · rw [if_pos hd]
          exact loop_of_error (regExpRound_backslash_end hp hr (by simp [hd]) inClass)
        · have hd' : isLineTerminator d = false := by simpa using hd
          have htwo : CutsClean p.rest 2 := .of_lineFree (by simp [hr, hplain, hd'])
          have hds : (p.advance 2).rest = ds := by rw [Place.rest_advance, hr]; rfl
          have hlt : (p.advance 2).rest.length < p.rest.length := by
            rw [hds, hr, List.length_cons, List.length_cons]
            omega
          rw [if_neg hd, regExpBody, loop_at hp hne Nat.two_pos (regExpRound_backslash hp hr hd' inClass),
            Scan.settle_after htwo, ← hds]
          exact ih _ hlt (hp.advance 2) inClass rfl
    have hround := regExpRound_char (b := b) hp hr hplain hb inClass
    have further : ∀ inClass', regExpRound inClass (p.cursor source b) =
        some (.ok (.again inClass'), (p.advance 1).cursor source b) →
        regExpBody inClass (p.cursor source b) =
          ((scanBody inClass' cs).after 1).settle source b .unterminatedRegExp p := by
      intro inClass' hround
      rw [regExpBody, loop_at hp hne Nat.one_pos hround, Scan.settle_after hone, ← hcs]
      exact ih _ (by simp [hr]) (hp.advance 1) inClass' rfl
    rw [if_neg hb]
    by_cases hopen : (c == '[') = true
    · rw [if_pos hopen] at hround ⊢
      exact further true hround
    rw [if_neg hopen] at hround ⊢
    by_cases hclose : (c == ']') = true
    · rw [if_pos hclose] at hround ⊢
      exact further false hround
    rw [if_neg hclose] at hround ⊢
    by_cases hend : (c == '/' && !inClass) = true
    · rw [if_pos hend] at hround ⊢
      exact loop_of_done hround
    rw [if_neg hend] at hround ⊢
    exact further inClass hround

theorem regExp_at (hp : p.Within source) {c : Char} {cs : List Char} (h : p.rest = c :: cs)
    (hc : isLineTerminator c = false) :
    regExp (p.cursor source b) = (scan p.rest).settle source b .unterminatedRegExp p := by
  have hone : CutsClean p.rest 1 := Place.cutsClean_next h hc
  have hcs : (p.advance 1).rest = cs := Place.rest_next h
  have hbody := regExpBody_at (b := b) (hp.advance 1) false
  have hline := hasLineTerminator_take_scanBody false cs
  rw [hcs, ← Scan.settle_after hone] at hbody
  rw [regExp, bind_of_ok (bump_at hp h hc), h, scan]
  cases hs : scanBody false cs with
  | malformed n =>
    rw [hs] at hbody
    exact bind_of_error hbody
  | read u n =>
    rw [hs] at hbody hline
    have hcut : CutsClean p.rest (1 + n) := by
      refine .of_lineFree ?_
      rw [h]
      exact hasLineTerminator_take_add (by simp [hc]) hline
    have hrest : (p.advance (1 + n)).rest = cs.drop n := by
      rw [Place.advance_add hone, Place.rest_advance, hcs]
    have hflags : ∀ c, (c == '\\' || isIdentifierPart c) = true → isLineTerminator c = false := by
      intro c hc
      rcases Bool.or_eq_true_iff.1 hc with hc | hc
      · obtain rfl : c = '\\' := by simpa using hc
        decide
      · exact not_isLineTerminator_of_part hc
    refine (bind_of_ok hbody).trans ?_
    rw [bumpWhile_at (hp.advance _) hflags, hrest, ← Place.advance_add hcut]
    rfl

end Literals

end Checked

end EcmaTokens
