/-
Tokens apart from their source. The texts of a source's tokens, written out again with blanks and
closed comments between them, have the same tokens: what a token is depends on its own text alone.
-/
import EcmaTokens.Proofs.Session.Sequence

namespace EcmaTokens

/-! ## Texts with separators -/

/-- A blank, and then blanks and closed comments. -/
def Separator (cs : List Char) : Prop :=
  ∃ c filler, cs = c :: filler ∧ isBlank c = true ∧ Gap.Filler filler

/-- The texts of tokens, each behind a separator. -/
def spaced : List String → List Token → String
  | sep :: seps, t :: ts => sep ++ t.text ++ spaced seps ts
  | _, _ => ""

/-- The texts of tokens with separators between them. -/
def respaced : List Token → List String → String
  | [], _ => ""
  | t :: ts, seps => t.text ++ spaced seps ts

theorem Separator.filler {cs : List Char} (h : Separator cs) : Gap.Filler cs := by
  obtain ⟨c, filler, rfl, hc, hf⟩ := h
  exact .blank hc hf

theorem replaces_spaced {seps : List String} (h : ∀ sep ∈ seps, Separator sep.toList) (ts : List Token) :
    Replaces [] (spaced seps ts).toList := by
  unfold spaced
  split
  · next sep seps t ts =>
    obtain ⟨c, filler, hsep, hc, -⟩ := h sep (by simp)
    rw [String.toList_append, String.toList_append, hsep]
    exact .of_separates (separates_of_isBlank hc) [] _
  · exact .nil []

/-! ## Tokens by their text -/

section

variable [WideConversion]

/-- The text is read as the kind of token wherever nothing or a separating character follows it. -/
def Token.Spelled (strict : Bool) (t : Token) : Prop :=
  ∃ x, t.kind = Lexeme.kind strict x ∧ ∀ tail, Replaces [] tail →
    Lexeme.scan (t.text.toList ++ tail) = .read x t.text.toList.length

/-- Every token of a source is one that its text alone determines. -/
theorem spelled_of_readAll {settings : Settings} {p : Place} {ts : List Token} (h : readAll settings p = .ok ts) :
    ∀ t ∈ ts, t.Spelled settings.strict := by
  fun_induction readAll settings p generalizing ts with
  | case1 => cases h
  | case2 => cases h; intro t ht; cases ht
  | case3 p t hr ht ih =>
    cases hs : readAll settings (Reading.ofPlace settings p).stop with
    | error e => rw [hs] at h; cases h
    | ok ts' =>
      rw [hs] at h
      obtain rfl : t :: ts' = ts := Except.ok.inj h
      refine List.forall_mem_cons.2 ⟨?_, ih hs⟩
      have o := Reading.outcome settings p
      generalize Reading.ofPlace settings p = r at hr o
      cases o with
      | unclosed => cases hr
      | eof => cases hr; exact absurd rfl ht
      | malformed => cases hr
      | @lexeme n m x hg hx =>
        cases hr
        obtain ⟨front, rest, hd, rfl, hl⟩ := Lexeme.scan_local hx
        have htext : (Token.ofPlace (x.kind settings.strict) (p.advance n) front.length).text.toList = front := by
          show (String.ofList ((p.rest.drop n).take front.length)).toList = front
          rw [hd, String.toList_ofList, List.take_left]
        refine ⟨x, rfl, ?_⟩
        intro tail htail
        rw [htext]
        -- what can stand where nothing stood can stand in the place of any text
        exact hl tail fun c hc => .inl ((htail c hc).resolve_right (by simp))

/-- The kind and the text of a token, without its place. -/
def Token.content (t : Token) : Kind × String :=
  (t.kind, t.text)

/-- Behind a filler a token is read by its text. -/
theorem ofPlace_of_spelled {settings : Settings} {t : Token} (ht : t.Spelled settings.strict) {p : Place}
    {filler tail : List Char} (hf : Gap.Filler filler) (htail : Replaces [] tail)
    (hp : p.rest = filler ++ (t.text.toList ++ tail)) :
    ∃ t', (Reading.ofPlace settings p).result = .ok t' ∧ t'.content = t.content ∧ t'.isEof = false ∧
      (Reading.ofPlace settings p).stop.rest = tail := by
  obtain ⟨x, hk, hx⟩ := ht
  have hg : Gap.scan settings.htmlComments (p.offset == 0) p.rest = .read () filler.length := by
    rw [hp]; exact Gap.scan_filler_lexeme hf (hx [] (.nil [])) htail
  have hd : p.rest.drop filler.length = t.text.toList ++ tail := by rw [hp, List.drop_left]
  rw [Reading.ofPlace_of_lexeme hg (by rw [hd]; exact hx tail htail)]
  refine ⟨_, rfl, ?_, Reading.kind_not_eof settings.strict x, ?_⟩
  · rw [Token.content, Token.content, hk]
    show (_, String.ofList ((p.rest.drop filler.length).take t.text.toList.length)) = _
    rw [hd, List.take_left, String.ofList_toList]
    rfl
  · show ((p.rest.drop filler.length).drop t.text.toList.length) = tail
    rw [hd, List.drop_left]

/-! ## Reading again -/

/-- From every place in front of `tail` tokens with the contents of `ts` are read. -/
def ReadsAs (settings : Settings) (tail : List Char) (ts : List Token) : Prop :=
  ∀ p : Place, p.rest = tail →
    ∃ ts', readAll settings p = .ok ts' ∧ ts'.map Token.content = ts.map Token.content

theorem ReadsAs.nil (settings : Settings) : ReadsAs settings [] [] :=
  fun _ hp => ⟨[], readAll_at_end settings hp, rfl⟩

theorem ReadsAs.cons {settings : Settings} {t : Token} {ts : List Token} {filler tail : List Char}
    (ht : t.Spelled settings.strict) (hf : Gap.Filler filler) (htail : Replaces [] tail)
    (h : ReadsAs settings tail ts) : ReadsAs settings (filler ++ (t.text.toList ++ tail)) (t :: ts) := by
  intro p hp
  obtain ⟨t', hres, hc, hk, hstop⟩ := ofPlace_of_spelled ht hf htail hp
  obtain ⟨ts', hts, hmap⟩ := h _ hstop
  refine ⟨t' :: ts', ?_, by simp [hc, hmap]⟩
  rw [readAll_eq, Reading.followed, hres]
  simp [Except.bind, hk, hts, Except.map]

/-- Texts behind separators are read as the tokens they are of. -/
theorem readsAs_spaced {settings : Settings} {ts : List Token} (hts : ∀ t ∈ ts, t.Spelled settings.strict)
    {seps : List String} (hlen : seps.length = ts.length) (hseps : ∀ sep ∈ seps, Separator sep.toList) :
    ReadsAs settings (spaced seps ts).toList ts := by
  induction ts generalizing seps with
  | nil =>
    obtain rfl := List.length_eq_zero_iff.1 hlen
    exact .nil settings
  | cons t ts ih =>
    cases seps with
    | nil => cases hlen
    | cons sep seps =>
      obtain ⟨ht, hts⟩ := List.forall_mem_cons.1 hts
      obtain ⟨hsep, hseps⟩ := List.forall_mem_cons.1 hseps
      rw [spaced, String.toList_append, String.toList_append, List.append_assoc]
      exact .cons ht hsep.filler (replaces_spaced hseps ts) (ih hts (by simpa using hlen) hseps)

end

/-- The texts of a source's tokens, with separators between them, have tokens with the same kinds and
texts in the same order. -/
theorem tokenize_respaced [WideConversion] {settings : Settings} {source : String} {ts : List Token}
    (h : tokenize settings source = .ok ts) {seps : List String} (hlen : seps.length = ts.length - 1)
    (hseps : ∀ sep ∈ seps, Separator sep.toList) :
    ∃ ts', tokenize settings (respaced ts seps) = .ok ts' ∧
      ts'.map Token.content = ts.map Token.content := by
  rw [tokenize_eq_readAll] at h
  have hts := spelled_of_readAll h
  rw [tokenize_eq_readAll]
  refine (?_ : ReadsAs settings (respaced ts seps).toList ts) _ rfl
  cases ts with
  | nil => exact .nil settings
  | cons t ts =>
    obtain ⟨ht, hts⟩ := List.forall_mem_cons.1 hts
    rw [respaced, String.toList_append]
    -- nothing stands in front of the first token
    exact .cons ht .nil (replaces_spaced hseps ts) (readsAs_spaced hts (by simpa using hlen) hseps)

/-- A string over two lines, and the parts of an arrow kept apart. -/
theorem tokenize_respaced_arrow :
    ∃ ts, tokenize {} "a-->b 'c\\\r\nd'//" = .ok ts ∧ ts.length = 5 ∧
      (∀ sep ∈ ["\r\n", " /* > */", "\u2028", "\n/**/"], Separator sep.toList) ∧
      ∃ ts', tokenize {} (respaced ts ["\r\n", " /* > */", "\u2028", "\n/**/"]) = .ok ts' ∧
        ts'.map Token.content = ts.map Token.content := by
  have h : (tokenize {} "a-->b 'c\\\r\nd'//").toOption.map List.length = some 5 := by decide +kernel
  obtain ⟨ts, hts, hlen⟩ := Option.map_eq_some_iff.1 h
  have hts := ok_of_toOption hts
  have hseps : ∀ sep ∈ ["\r\n", " /* > */", "\u2028", "\n/**/"], Separator sep.toList := by
    simp only [List.forall_mem_cons, List.not_mem_nil, false_imp_iff, implies_true, and_true]
    refine ⟨⟨'\r', ['\n'], rfl, by decide, ?_⟩, ⟨' ', _, rfl, by decide, ?_⟩, ⟨'\u2028', [], rfl, by decide, .nil⟩,
      ⟨'\n', _, rfl, by decide, ?_⟩⟩
    · exact .blank (by decide) .nil
    · have hb : Gap.CommentBody " > ".toList := by rw [Gap.CommentBody]; decide
      exact .comment hb .nil
    · exact .comment Gap.CommentBody.nil .nil
  exact ⟨ts, hts, hlen, hseps, tokenize_respaced hts (by rw [hlen]; rfl) hseps⟩

end EcmaTokens
