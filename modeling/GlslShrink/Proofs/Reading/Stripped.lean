import GlslShrink.Proofs.Printing.Stripped
import GlslShrink.Proofs.Reading.Soundness
import GlslShrink.Printing.Render

/-!
What a reader passes over. `Reader.Passes` relates the value that is read to the characters that the
text says up to the place where the reader stops, and `Reader.Tells` asks for those that the pieces
of the value say. There is one rule for each way of building readers and one lemma for each token.
Nothing but blanks, comments and parentheses is lost on the way, except the word `void` for an empty
list; texts with such a list are left out.
-/

set_option autoImplicit false

namespace GlslShrink

open Token Text Piece

namespace Reader

variable {α β : Type}

/-- The text starts with a token, and none of its lists consists of the word `void`. -/
structure Ready (text : List Char) : Prop where
  atToken : skipBlank text = text
  voidless : hasVoidList text = false

/-- What the reader passes over says characters that are related so to the value. -/
def Passes (p : Reader α) (R : α → List Char → Prop) : Prop :=
  ∀ text a rest, p text = .read a rest → Ready text →
    ∃ said, R a said ∧ stripped text = said ++ stripped rest ∧ Ready rest

/-- What the reader passes over says the same as the pieces of the value. -/
def Tells (p : Reader α) (afterSlash : Bool) (pieces : α → List Piece) : Prop :=
  p.Passes fun a said => Says afterSlash (pieces a) said

section Rules

variable {R : α → List Char → Prop} {S : β → List Char → Prop} {p q : Reader α}

theorem Passes.imp {R' : α → List Char → Prop} (h : p.Passes R)
    (himp : ∀ a said, R a said → R' a said) : p.Passes R' := by
  intro text a rest hread hready
  obtain ⟨said, hsaid, hrest⟩ := h text a rest hread hready
  exact ⟨said, himp a said hsaid, hrest⟩

theorem Passes.and_yields {Q : α → Prop} (h : p.Passes R) (hQ : p.Yields Q) :
    p.Passes fun a said => Q a ∧ R a said := by
  intro text a rest hread hready
  obtain ⟨said, hsaid, hrest⟩ := h text a rest hread hready
  exact ⟨said, ⟨hQ text a rest hread, hsaid⟩, hrest⟩

theorem passes_pure {a : α} (h : R a []) : (pure a : Reader α).Passes R := by
  intro text b rest hread hready
  cases hread
  exact ⟨[], h, rfl, hready⟩

theorem passes_refuse : (refuse : Reader α).Passes R := by
  intro text a rest hread
  cases hread

theorem Passes.bind {f : α → Reader β} (hp : p.Passes R)
    (hf : ∀ a said, R a said → (f a).Passes fun b more => S b (said ++ more)) :
    (p >>= f).Passes S := by
  intro text b rest hread hready
  obtain ⟨a, next, hfirst, hsecond⟩ := bind_inv hread
  obtain ⟨said, hsaid, htext, hnext⟩ := hp text a next hfirst hready
  obtain ⟨more, hmore, hnextText, hrest⟩ := hf a said hsaid next b rest hsecond hnext
  exact ⟨said ++ more, hmore, by rw [htext, hnextText, List.append_assoc], hrest⟩

/-- The last step of a reader: its value is put together. -/
theorem Passes.map {f : α → β} (hp : p.Passes R) (hf : ∀ a said, R a said → S (f a) said) :
    (p >>= fun a => pure (f a)).Passes S :=
  hp.bind fun a said hsaid => passes_pure (by simpa using hf a said hsaid)

theorem Passes.orElse (hp : p.Passes R) (hq : q.Passes R) : (p <|> q).Passes R := by
  intro text a rest hread
  rcases orElse_inv hread with hread | ⟨-, hread⟩
  · exact hp text a rest hread
  · exact hq text a rest hread

theorem Passes.branch {f : α → Reader β} {otherwise : Reader β} (hp : p.Passes R)
    (hf : ∀ a said, R a said → (f a).Passes fun b more => S b (said ++ more))
    (ho : otherwise.Passes S) : (p.branch f otherwise).Passes S := by
  intro text b rest hread
  rcases branch_inv hread with ⟨a, middle, hfirst, hsecond⟩ | ⟨-, hread⟩
  · exact hp.bind hf text b rest ((bind_read f hfirst).trans hsecond)
  · exact ho text b rest hread

theorem Passes.guarded (hp : p.Passes R) (test : α → Bool) :
    (p.guarded test).Passes fun a said => test a = true ∧ R a said := by
  refine (Passes.and_yields ?_ (yields_guarded p test))
  exact fun text a rest hread => hp text a rest (guarded_inv hread).1

section Recursion

variable {ι : Type} {family : (ι → Reader α) → ι → Reader α}

/-- What holds of a reader that is stuck at once and is kept by a round of unfolding. -/
theorem fix_induction {Q : ι → Reader α → Prop}
    (htext : ∀ i p, (∀ text, ∃ q, Q i q ∧ q text = p text) → Q i p) (hstuck : ∀ i, Q i refuse)
    (hround : ∀ p : ι → Reader α, (∀ j, Q j (p j)) → ∀ i, Q i (family p i)) (i : ι) :
    Q i (fix family i) := by
  have hunfolding : ∀ depth j, Q j (unfolding family depth j) := by
    intro depth
    induction depth with
    | zero => exact hstuck
    | succ depth ih => exact hround _ ih
  exact htext i _ fun text => ⟨_, hunfolding (text.length + 1) i, rfl⟩

theorem passes_of_texts (h : ∀ text, ∃ q : Reader α, q.Passes R ∧ q text = p text) :
    p.Passes R := by
  intro text a rest hread
  obtain ⟨q, hq, htext⟩ := h text
  exact hq text a rest (htext.trans hread)

/-- The readers of a family pass over what a round of unfolding passes over. -/
theorem passes_fix {R : ι → α → List Char → Prop}
    (h : ∀ p : ι → Reader α, (∀ j, (p j).Passes (R j)) → ∀ i, (family p i).Passes (R i)) (i : ι) :
    (fix family i).Passes (R i) :=
  fix_induction (Q := fun i p => p.Passes (R i)) (fun _ _ => passes_of_texts)
    (fun _ => passes_refuse) h i

end Recursion

/-- A value that grows with what it says. -/
theorem Passes.extend {step : α → Reader (Option α)}
    (hstep : ∀ a said, R a said → (step a).Passes fun found more =>
      found.elim (more = []) fun b => R b (said ++ more)) {a : α} {said : List Char}
    (ha : R a said) : (extend step a).Passes fun b more => R b (said ++ more) := by
  refine fix_induction
    (Q := fun a p => ∀ said, R a said → p.Passes fun b more => R b (said ++ more))
    (fun a p htexts said ha => passes_of_texts fun text => ?_) (fun _ _ _ => passes_refuse)
    (fun more hmore a said ha => ?_) a said ha
  · obtain ⟨q, hq, htext⟩ := htexts text
    exact ⟨q, hq said ha, htext⟩
  · -- the value so far keeps what it says, and a step adds what it passes over
    refine (hstep a said ha).bind fun found passed hfound => ?_
    cases found with
    | none =>
      obtain rfl : passed = [] := hfound
      exact passes_pure (by simpa using ha)
    | some larger =>
      simpa only [List.append_assoc] using hmore larger (said ++ passed) hfound

end Rules

section Lists

variable {p : Reader α} {pieces : α → List Piece}

theorem Tells.anywhere (h : p.Tells true pieces) : p.Tells false pieces :=
  h.imp fun _ _ hsaid => hsaid.anywhere

theorem Passes.many {R : α → List Char → Prop} {S : List α → List Char → Prop} (hp : p.Passes R)
    (hnil : S [] []) (hcons : ∀ a said others more, R a said → S others more →
      S (a :: others) (said ++ more)) : (many p).Passes S := by
  refine passes_fix (R := fun _ => S) (fun more hmore _ => ?_) ()
  refine hp.branch (fun a said h => ?_) (passes_pure hnil)
  exact (hmore ()).map fun others more hothers => hcons a said others more h hothers

theorem Tells.many (hp : p.Tells false pieces) :
    (many p).Tells false fun values => (values.map pieces).flatten :=
  Passes.many hp .nil fun _ _ _ _ h hothers => h.append hothers

theorem Tells.many1 (hp : p.Tells false pieces) :
    (many1 p).Tells false fun values => (values.map pieces).flatten :=
  hp.bind fun _ _ h => hp.many.map fun _ _ hothers => h.append hothers

theorem Tells.manyUntil {close : Reader β} {closing : List Piece} (hp : p.Tells false pieces)
    (hclose : close.Tells false fun _ => closing) :
    (manyUntil p close).Tells false fun values => (values.map pieces).flatten ++ closing := by
  refine passes_fix
    (R := fun _ (values : List α) => Says false ((values.map pieces).flatten ++ closing))
    (fun more hmore _ => ?_) ()
  refine hclose.branch (fun _ said h => passes_pure (by simpa using h)) ?_
  refine hp.bind fun a said h => (hmore ()).map fun others more hothers => ?_
  rw [List.map_cons, List.flatten_cons, List.append_assoc]
  exact h.append hothers

theorem Tells.optional (hp : p.Tells false pieces) :
    p.optional.Tells false (Sketch.ifAny pieces) :=
  hp.branch (fun _ _ h => passes_pure (by rw [List.append_nil]; exact h)) (passes_pure .nil)

end Lists

end Reader

/-! ### Tokens -/

open Reader

namespace Token

theorem skipBlank_skipBlank (text : List Char) : skipBlank (skipBlank text) = skipBlank text := by
  fun_induction skipBlank text with
  | case1 => exact skipBlank_nil
  | case2 rest ih => exact ih
  | case3 rest after hafter ih => exact ih
  | case4 rest hafter =>
    rw [skipBlank]
    split <;> simp_all
  | case5 c rest _ _ hblank ih => exact ih
  | case6 c rest hline hblock hblank =>
    rw [skipBlank.eq_def]
    split <;> simp_all

theorem ready_skipBlank {text : List Char} (h : hasVoidList text = false) :
    Ready (skipBlank text) :=
  ⟨skipBlank_skipBlank text, (scan_skipBlank text).trans h⟩

theorem stripped_skipBlank (text : List Char) : stripped (skipBlank text) = stripped text :=
  scan_skipBlank text

/-- A token at the front of the text is said, and the next one comes after the blanks. -/
theorem passed_token {chars next : List Char} (hplain : PlainToken chars)
    (hready : Ready (chars ++ next)) :
    stripped (chars ++ next) = bared chars ++ stripped (skipBlank next) ∧
      Ready (skipBlank next) := by
  refine ⟨?_, ready_skipBlank (hasVoidList_token hplain hready.voidless)⟩
  rw [stripped_token _ hplain, stripped_skipBlank]

theorem passed_slash {next : List Char} (hready : Ready ('/' :: next)) :
    stripped ('/' :: next) = '/' :: stripped (skipBlank next) ∧ Ready (skipBlank next) := by
  have hvoid : hasVoidList ('/' :: next) = (false || hasVoidList next) := scan_slash hready.atToken
  refine ⟨?_, ready_skipBlank (hvoid.symm.trans hready.voidless)⟩
  rw [stripped_skipBlank]
  exact scan_slash hready.atToken

end Token

namespace Reader

/-- The characters of the value stand at the front of the text, and blanks may follow. -/
def Spells {α : Type} (p : Reader α) (chars : α → List Char) : Prop :=
  ∀ text a rest, p text = .read a rest → ∃ next, text = chars a ++ next ∧ rest = skipBlank next

/-- The characters are copied by a scan, apart from parentheses. -/
structure Copied (chars said : List Char) : Prop where
  plain : ∀ c ∈ chars, isPlain c = true
  bared_eq : bared chars = said

section Spelled

variable {α : Type} {p : Reader α} {chars : α → List Char}

theorem spells_lexeme (h : ∀ text a rest, p text = .read a rest → text = chars a ++ rest) :
    (lexeme p).Spells chars := by
  intro text a rest hread
  obtain ⟨next, hread, hrest⟩ := lexeme_inv hread
  exact ⟨next, h text a next hread, hrest⟩

theorem Spells.copies (h : p.Spells chars)
    (hplain : p.Yields fun a => ∀ c ∈ chars a, isPlain c = true) :
    p.Passes fun a said => Copied (chars a) said := by
  intro text a rest hread hready
  have hchars := hplain text a rest hread
  obtain ⟨next, rfl, rfl⟩ := h text a rest hread
  exact ⟨bared (chars a), ⟨hchars, rfl⟩, passed_token (Or.inr hchars) hready⟩

theorem copied_of_all {chars : List Char} (h : chars.all isPlain = true) :
    Copied chars (bared chars) :=
  ⟨List.all_eq_true.mp h, rfl⟩

theorem Copied.append {chars others said more : List Char} (h : Copied chars said)
    (hothers : Copied others more) : Copied (chars ++ others) (said ++ more) where
  plain := List.forall_mem_append.mpr ⟨h.plain, hothers.plain⟩
  bared_eq := by rw [bared_append, h.bared_eq, hothers.bared_eq]

theorem Copied.told {afterSlash : Bool} {text : String} {said : List Char}
    (h : Copied text.toList said) (hslash : afterSlash = true → keepsSlash text = true) :
    Says afterSlash [token text] said := by
  have htold : Says afterSlash [token text] (bared text.toList ++ []) :=
    .token (Or.inr h.plain) hslash .nil
  rwa [List.append_nil, h.bared_eq] at htold

theorem Copied.toldAnywhere {text : String} {said : List Char} (h : Copied text.toList said) :
    Says false [token text] said :=
  h.told fun hfalse => absurd hfalse Bool.false_ne_true

end Spelled

end Reader

namespace Token

/-! #### Words and literals -/

theorem keepsSlash_of_head {text : String} {c : Char} {chars : List Char}
    (htext : text.toList = c :: chars) (hc : (Word.isPart c || c == '.') = true) :
    keepsSlash text = true := by
  have hmarks : ∀ d ∈ ['/', '*'], (Word.isPart d || d == '.') = false :=
    forall_mem_of_all (by decide)
  have hne : ∀ d ∈ ['/', '*'], c ≠ d := by
    rintro d hd rfl
    rw [hmarks c hd] at hc
    cases hc
  rw [keepsSlash, htext]
  simp [hne '/', hne '*']

theorem plain_of_isWord {text : String} (h : Word.isWord text = true) :
    ∀ c ∈ text.toList, isPlain c = true := by
  obtain ⟨c, others, hchars, hc, hothers⟩ := exists_of_isWord h
  rw [hchars]
  exact List.forall_mem_cons.mpr ⟨isPlain_of_isPart (isPart_of_isStart hc),
    fun d hd => isPlain_of_isPart (hothers d hd)⟩

theorem keepsSlash_of_isWord {text : String} (h : Word.isWord text = true) :
    keepsSlash text = true := by
  obtain ⟨c, others, hchars, hc, -⟩ := exists_of_isWord h
  exact keepsSlash_of_head hchars (by rw [isPart_of_isStart hc]; rfl)

theorem spells_word : word.Spells String.toList := by
  refine spells_lexeme fun text w rest hread => ?_
  obtain ⟨c, next, hfirst, hread⟩ := bind_inv hread
  obtain ⟨others, next', hothers, hread⟩ := bind_inv hread
  cases hread
  obtain ⟨rfl, -⟩ := satisfying_inv hfirst
  obtain ⟨rfl, -⟩ := run_inv hothers
  rw [String.toList_ofList]
  rfl

theorem copies_word : word.Passes fun w said => Copied w.toList said :=
  spells_word.copies (yields_word.imp fun _ hw => plain_of_isWord hw)

theorem tells_word : word.Tells true fun w => [token w] := by
  refine (copies_word.and_yields yields_word).imp fun w said h => ?_
  exact h.2.told fun _ => keepsSlash_of_isWord h.1

theorem tells_wordIn (expected : List String) : (wordIn expected).Tells true fun w => [token w] :=
  (tells_word.guarded _).imp fun _ _ h => h.2

theorem tells_identifier : identifier.Tells true fun w => [token w] :=
  (tells_word.guarded _).imp fun _ _ h => h.2

theorem tells_keyword (expected : String) :
    (keyword expected).Tells true fun _ => [token expected] := by
  refine (tells_word.guarded _).imp fun w said h => ?_
  rw [← beq_iff_eq.mp h.1]
  exact h.2

theorem isPlain_of_isDigit {c : Char} (h : c.isDigit = true) : isPlain c = true :=
  isPlain_of_isPart (isPart_of_isDigit h)

theorem plain_of_choice {choices ending : List Char}
    (h : ending = [] ∨ ∃ c ∈ choices, ending = [c]) (hall : choices.all isPlain = true) :
    ∀ c ∈ ending, isPlain c = true := by
  rcases h with rfl | ⟨c, hc, rfl⟩
  · simp
  · simpa using List.all_eq_true.mp hall c hc

theorem ExponentText.plain {power : List Char} (h : ExponentText power) :
    ∀ c ∈ power, isPlain c = true := by
  cases h with
  | intro he hsign hdigits =>
    refine List.forall_mem_append.mpr ⟨List.forall_mem_cons.mpr ⟨?_, ?_⟩, fun c hc => ?_⟩
    · rcases he with rfl | rfl <;> rfl
    · exact plain_of_choice hsign rfl
    · exact isPlain_of_isDigit (hdigits.2 c hc)

theorem MaybeExponent.plain {power : List Char} (h : MaybeExponent power) :
    ∀ c ∈ power, isPlain c = true := by
  rcases h with rfl | h
  · simp
  · exact h.plain

theorem FloatText.plain {chars : List Char} (h : FloatText chars) :
    ∀ c ∈ chars, isPlain c = true := by
  obtain ⟨number, ending, hnumber, hending, rfl⟩ := h
  refine List.forall_mem_append.mpr ⟨?_, plain_of_choice hending rfl⟩
  cases hnumber with
  | pointed hwhole hfraction hpower =>
    refine List.forall_mem_append.mpr
      ⟨List.forall_mem_append.mpr ⟨fun c hc => ?_, ?_⟩, hpower.plain⟩
    · exact isPlain_of_isDigit (hwhole.2 c hc)
    · exact List.forall_mem_cons.mpr ⟨rfl, fun c hc => isPlain_of_isDigit (hfraction c hc)⟩
  | fraction hfraction hpower =>
    refine List.forall_mem_append.mpr ⟨List.forall_mem_cons.mpr ⟨rfl, fun c hc => ?_⟩, hpower.plain⟩
    exact isPlain_of_isDigit (hfraction.2 c hc)
  | scaled hwhole hpower =>
    refine List.forall_mem_append.mpr ⟨fun c hc => ?_, hpower.plain⟩
    exact isPlain_of_isDigit (hwhole.2 c hc)

theorem IntText.plain {chars : List Char} (h : IntText chars) : ∀ c ∈ chars, isPlain c = true := by
  cases h with
  | hex hx hdigits hending =>
    refine List.forall_mem_append.mpr ⟨List.forall_mem_cons.mpr ⟨rfl, ?_⟩,
      plain_of_choice hending rfl⟩
    refine List.forall_mem_cons.mpr ⟨?_, fun c hc => ?_⟩
    · rcases hx with rfl | rfl <;> rfl
    · exact isPlain_of_isPart (isPart_of_isHexDigit (hdigits.2 c hc))
  | decimal hdigits hending =>
    refine List.forall_mem_append.mpr ⟨fun c hc => ?_, plain_of_choice hending rfl⟩
    exact isPlain_of_isDigit (hdigits.2 c hc)

theorem tells_floatLiteral : floatLiteral.Tells true fun text => [token text] := by
  have hyields : floatLiteral.Yields fun value => FloatText value.toList :=
    fun _ _ _ hread => floatLiteral_inv hread
  have hcopies : floatLiteral.Passes fun value said => Copied value.toList said := by
    refine Spells.copies (spells_lexeme fun text value rest hread => ?_)
      (hyields.imp fun value h => h.plain)
    obtain ⟨number, next, hnumber, hread⟩ := bind_inv hread
    obtain ⟨ending, next', hending, hread⟩ := bind_inv hread
    obtain ⟨_, next'', hnext, hread⟩ := bind_inv hread
    cases hread
    obtain ⟨rfl, -⟩ := notNext_inv hnext
    obtain ⟨rfl, -⟩ := maybe_inv hending
    rw [String.toList_ofList, List.append_assoc]
    rcases orElse_inv hnumber with hnumber | ⟨-, hnumber⟩
    · exact (pointedNumber_inv hnumber).1
    rcases orElse_inv hnumber with hnumber | ⟨-, hnumber⟩
    · exact (fractionNumber_inv hnumber).1
    · exact (scaledNumber_inv hnumber).1
  refine (hcopies.and_yields hyields).imp fun text said h => h.2.told fun _ => ?_
  obtain ⟨c, others, hchars, hc⟩ := h.1.head
  refine keepsSlash_of_head hchars ?_
  rw [Bool.or_eq_true] at hc ⊢
  exact hc.imp_left isPart_of_isDigit

theorem oneOf_text {spellings : List (List Char)} {text rest : List Char} {value : String}
    (h : oneOf spellings text = .read value rest) : text = value.toList ++ rest := by
  induction spellings with
  | nil => cases h
  | cons spelling others ih =>
    simp only [oneOf] at h
    split at h
    · rename_i next hstart
      cases h
      rw [String.toList_ofList]
      exact afterStart?_eq_some hstart
    · exact ih h

theorem yields_intText : intLiteral.Yields fun value => IntText value.toList :=
  fun _ _ _ hread => intLiteral_inv hread

theorem copies_intLiteral : intLiteral.Passes fun value said => Copied value.toList said := by
  refine Spells.copies (spells_lexeme fun text value rest hread => ?_)
    (yields_intText.imp fun value h => h.plain)
  obtain ⟨number, next, hnumber, hread⟩ := bind_inv hread
  obtain ⟨ending, next', hending, hread⟩ := bind_inv hread
  obtain ⟨_, next'', hnext, hread⟩ := bind_inv hread
  cases hread
  obtain ⟨rfl, -⟩ := notNext_inv hnext
  obtain ⟨rfl, -⟩ := maybe_inv hending
  rw [String.toList_ofList, List.append_assoc]
  rcases orElse_inv hnumber with hnumber | ⟨-, hnumber⟩
  · obtain ⟨lead, middle, hlead, hnumber⟩ := bind_inv hnumber
    obtain ⟨digits, middle', hdigits, hnumber⟩ := bind_inv hnumber
    cases hnumber
    rw [oneOf_text hlead, (run1_inv hdigits).1, List.append_assoc]
  · exact (run1_inv hnumber).1

theorem tells_intLiteral : intLiteral.Tells true fun text => [token text] := by
  refine (copies_intLiteral.and_yields yields_intText).imp fun text said h => h.2.told fun _ => ?_
  obtain ⟨c, others, hchars, hc⟩ := h.1.head
  exact keepsSlash_of_head hchars (by rw [isPart_of_isDigit hc]; rfl)

/-! #### Marks and operators -/

theorem spells_punct (c : Char) : (punct c).Spells fun _ => [c] := by
  refine spells_lexeme fun text _ rest hread => ?_
  obtain ⟨d, next, hfirst, hread⟩ := bind_inv hread
  cases hread
  obtain ⟨rfl, hd⟩ := satisfying_inv hfirst
  rw [beq_iff_eq.mp hd]
  rfl

theorem copies_punct {c : Char} (hc : isPlain c = true) :
    (punct c).Passes fun _ said => Copied [c] said :=
  (spells_punct c).copies fun _ _ _ _ => by simpa using hc

theorem tells_punct (c : Char) (text : String) (htext : text.toList = [c])
    (hc : isPlain c = true) : (punct c).Tells false fun _ => [token text] := by
  refine (copies_punct hc).imp fun _ said h => ?_
  rw [← htext] at h
  exact h.toldAnywhere

theorem tells_equals : equals.Tells false fun _ => [token "="] := by
  have hcopies : equals.Passes fun _ said => Copied ['='] said := by
    refine Spells.copies (spells_lexeme fun text _ rest hread => ?_) fun _ _ _ _ d hd => ?_
    · obtain ⟨d, next, hfirst, hread⟩ := bind_inv hread
      obtain ⟨rfl, -⟩ := notNext_inv hread
      obtain ⟨rfl, hd⟩ := satisfying_inv hfirst
      rw [beq_iff_eq.mp hd]
      rfl
    · rw [List.mem_singleton.mp hd]
      rfl
  exact hcopies.imp fun _ said h => Copied.toldAnywhere (show Copied "=".toList said from h)

/-- How the scan takes the operators: all but a single slash are tokens without parentheses. -/
theorem operators_cases {chars : List Char} (h : chars ∈ operators) :
    chars = ['/'] ∨ PlainToken chars ∧ bared chars = chars := by
  have hall : ∀ chars ∈ operators,
      chars = ['/'] ∨ (chars = ['/', '='] ∨ chars.all isPlain = true) ∧ bared chars = chars :=
    forall_mem_of_all (by decide)
  refine (hall chars h).imp_right fun hplain => ⟨hplain.1.imp_right fun hchars => ?_, hplain.2⟩
  exact List.all_eq_true.mp hchars

theorem passes_operator :
    operator.Passes fun op said => op.toList ∈ operators ∧ said = op.toList := by
  intro text op rest hread hready
  have hmem := mem_operators_of_read hread
  obtain ⟨next, hspelling, rfl⟩ := lexeme_inv hread
  obtain rfl := oneOf_text hspelling
  refine ⟨op.toList, ⟨hmem, rfl⟩, ?_⟩
  rcases operators_cases hmem with hslash | ⟨hplain, hbared⟩
  · rw [hslash] at hready ⊢
    exact passed_slash hready
  · have hpassed := passed_token hplain hready
    rwa [hbared] at hpassed

theorem passes_update :
    update.Passes fun op said => (op = "++" ∨ op = "--") ∧ said = op.toList := by
  intro text op rest hread hready
  obtain ⟨hoperator, hop⟩ := operator_of_update hread
  obtain ⟨said, hsaid, hrest⟩ := passes_operator text op rest hoperator hready
  exact ⟨said, ⟨hop, hsaid.2⟩, hrest⟩

/-- A directive is passed over with its whole line. -/
theorem tells_directive : Token.directive.Tells false fun text => [.directive text] := by
  intro text value rest hread hready
  have hdirective := yields_directive text value rest hread
  obtain ⟨next, hchars, rfl⟩ := lexeme_inv hread
  obtain ⟨mark, next', hmark, hchars⟩ := bind_inv hchars
  obtain ⟨line, next'', hline, hchars⟩ := bind_inv hchars
  cases hchars
  cases hline
  obtain ⟨rfl, hhash⟩ := satisfying_inv hmark
  cases beq_iff_eq.mp hhash
  have hvoid : hasVoidList ('#' :: next') = hasVoidList (next'.dropWhile (· != '\n')) :=
    scan_hash next'
  have hsaid : stripped ('#' :: next') = trimEnd ('#' :: next'.takeWhile (· != '\n')) ++
      stripped (next'.dropWhile (· != '\n')) := scan_hash next'
  refine ⟨_, .directive hdirective .nil, ?_, ready_skipBlank (hvoid.symm.trans hready.voidless)⟩
  rw [String.toList_ofList, List.append_nil, stripped_skipBlank, hsaid]

end Token

/-! #### Layout qualifiers -/

namespace Declaration

open Token

theorem copies_layoutEntry : layoutEntry.Passes fun entry said => Copied entry.toList said := by
  have hvalue : (optional (do punct '='; intLiteral)).Passes fun value said =>
      value.elim (said = []) fun number => Copied ('=' :: number.toList) said := by
    refine Passes.branch ((copies_punct rfl).bind fun _ _ hmark => copies_intLiteral.imp
      fun number said hnumber => hmark.append hnumber) ?_ (passes_pure rfl)
    exact fun number said h => passes_pure (by rw [List.append_nil]; exact h)
  refine copies_word.bind fun name said hname => hvalue.bind fun value more hmore => ?_
  cases value with
  | none =>
    obtain rfl : more = [] := hmore
    exact passes_pure (by simpa using hname)
  | some number =>
    refine passes_pure ?_
    rw [List.append_nil, String.toList_append, String.toList_append, List.append_assoc]
    exact hname.append hmore

theorem copies_layoutQualifier :
    layoutQualifier.Passes fun layout said => Copied layout.toList said := by
  have hkeyword : (keyword "layout").Passes fun _ said => Copied "layout".toList said := by
    refine (copies_word.guarded _).imp fun w said h => ?_
    rw [← beq_iff_eq.mp h.1]
    exact h.2
  have hmore : (many (do let _ ← punct ','; layoutEntry)).Passes fun entries said =>
      Copied (entries.flatMap fun entry => ',' :: entry.toList) said := by
    refine Passes.many ((copies_punct rfl).bind fun _ _ hmark => copies_layoutEntry.imp
      fun entry said hentry => hmark.append hentry) ⟨by simp, rfl⟩ ?_
    exact fun entry said others more h hothers => h.append hothers
  have hentries : (separated1 (punct ',') layoutEntry).Passes fun entries said =>
      Copied (String.intercalate "," entries).toList said := by
    refine copies_layoutEntry.bind fun first said hfirst => hmore.map fun others more hothers => ?_
    rw [toList_intercalate]
    exact hfirst.append hothers
  refine hkeyword.bind fun _ s hs => (copies_punct rfl).bind fun _ t ht => ?_
  refine hentries.bind fun entries u hu => (copies_punct rfl).map fun _ v hv => ?_
  have hlayout : ("layout(" ++ String.intercalate "," entries ++ ")").toList =
      "layout".toList ++ (['('] ++ ((String.intercalate "," entries).toList ++ [')'])) := by
    simp
  rw [hlayout]
  exact hs.append (ht.append (hu.append hv))

theorem tells_declarationQualifier : declarationQualifier.Tells false fun q => [token q] :=
  (copies_layoutQualifier.imp fun _ _ h => h.toldAnywhere).orElse (tells_wordIn _).anywhere

end Declaration

end GlslShrink
