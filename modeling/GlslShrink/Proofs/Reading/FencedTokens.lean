import GlslShrink.Proofs.Reading.Fence

/-!
Every token keeps to a fence. The characters of most tokens are soft, so a fence is none of them and
stops the token reader before the tail behind it (`Reader.Crisp`); brackets lead into and out of a
depth, and a semicolon is passed where it is not the fence. The blanks after a token end before the
fence as well, so they are the same without the tail (`Token.heeds_lexeme`).
-/

set_option autoImplicit false

namespace GlslShrink

open Reader Token Text

/-! ### Characters of a token -/

namespace Reader

variable {α β : Type} {wall : Char}

theorem wall_mem_of_soft {chars rest : List Char} (hwall : isHard wall = true)
    (hsoft : ∀ c ∈ chars, isSoft c = true) (h : wall ∈ chars ++ rest) : wall ∈ rest := by
  rcases List.mem_append.mp h with hmem | hmem
  · have hfalse := hsoft wall hmem
    rw [isSoft, hwall, Bool.not_true, Bool.and_false] at hfalse
    cases hfalse
  · exact hmem

/-- The reader takes soft characters off the front of the text, and does not look beyond the wall. -/
structure Crisp (wall : Char) (p : Reader α) : Prop where
  front : ∀ {text a rest}, p text = .read a rest →
    ∃ chars, text = chars ++ rest ∧ ∀ c ∈ chars, isSoft c = true
  place : ∀ {text place}, p text = .stuck place → place <:+ text
  ignores : ∀ {text : List Char} (tail : List Char), wall ∈ text → p.Ignores tail text

section Crisp

variable {p q : Reader α} {test : Char → Bool}

theorem crisp_pure (a : α) : (pure a : Reader α).Crisp wall where
  front hread := by
    cases hread
    exact ⟨[], rfl, by simp⟩
  place hstuck := by cases hstuck
  ignores _ _ := Or.inl ⟨a, _, rfl, rfl⟩

theorem Crisp.bind {f : α → Reader β} (hwall : isHard wall = true) (hp : p.Crisp wall)
    (hf : ∀ a, (f a).Crisp wall) : (p >>= f).Crisp wall where
  front hread := by
    obtain ⟨a, next, hfirst, hsecond⟩ := bind_inv hread
    obtain ⟨chars, rfl, hchars⟩ := hp.front hfirst
    obtain ⟨others, rfl, hothers⟩ := (hf a).front hsecond
    exact ⟨chars ++ others, (List.append_assoc _ _ _).symm,
      List.forall_mem_append.mpr ⟨hchars, hothers⟩⟩
  place hstuck := by
    rcases bind_stuck_inv hstuck with hfirst | ⟨a, next, hfirst, hsecond⟩
    · exact hp.place hfirst
    · obtain ⟨chars, rfl, -⟩ := hp.front hfirst
      exact ((hf a).place hsecond).trans (List.suffix_append chars next)
  ignores tail hmem := by
    refine (hp.ignores tail hmem).bind fun a next hfirst _ => (hf a).ignores tail ?_
    obtain ⟨chars, rfl, hchars⟩ := hp.front hfirst
    exact wall_mem_of_soft hwall hchars hmem

theorem Crisp.orElse (hp : p.Crisp wall) (hq : q.Crisp wall) : (p <|> q).Crisp wall where
  front hread := by
    rcases orElse_inv hread with hread | ⟨-, hread⟩
    · exact hp.front hread
    · exact hq.front hread
  place hstuck := by
    rcases orElse_stuck_inv hstuck with hstuck | hstuck
    · exact hp.place hstuck
    · exact hq.place hstuck
  ignores tail hmem := (hp.ignores tail hmem).orElse (hq.ignores tail hmem)

theorem Crisp.branch {f : α → Reader β} {o : Reader β} (hwall : isHard wall = true)
    (hp : p.Crisp wall) (hf : ∀ a, (f a).Crisp wall) (ho : o.Crisp wall) :
    (p.branch f o).Crisp wall := by
  have hseq := hp.bind hwall hf
  refine ⟨fun {text _ _} => ?_, fun {text _} => ?_,
    fun tail hmem => (hp.ignores tail hmem).branch (hseq.ignores tail hmem) (ho.ignores tail hmem)⟩
  · rcases branch_ways p f o text with heq | heq
    · rw [heq]
      exact hseq.front
    · rw [heq]
      exact ho.front
  · rcases branch_ways p f o text with heq | heq
    · rw [heq]
      exact hseq.place
    · rw [heq]
      exact ho.place

theorem satisfying_stuck_inv {text place : List Char} (h : satisfying test text = .stuck place) :
    place = text := by
  cases text with
  | nil =>
    cases h
    rfl
  | cons c others =>
    simp only [satisfying] at h
    split at h <;> cases h
    rfl

/-- The first character decides whether it is read. -/
theorem satisfying_ignores {text : List Char} (tail : List Char) (h : text ≠ []) :
    (satisfying test).Ignores tail text := by
  obtain ⟨c, others, rfl⟩ := List.exists_cons_of_ne_nil h
  cases htest : test c with
  | true => exact Or.inl ⟨c, others, satisfying_read others htest, satisfying_read _ htest⟩
  | false =>
    exact Or.inr ⟨satisfying_refuses (stops_cons.mpr htest), satisfying_refuses (stops_cons.mpr htest)⟩

theorem crisp_satisfying (htest : ∀ c, test c = true → isSoft c = true) :
    (satisfying test).Crisp wall where
  front {text c rest} hread := by
    obtain ⟨rfl, hc⟩ := satisfying_inv hread
    exact ⟨[c], rfl, by simpa using htest c hc⟩
  place hstuck := by
    exact satisfying_stuck_inv hstuck ▸ List.suffix_refl _
  ignores tail hmem := satisfying_ignores tail (List.ne_nil_of_mem hmem)

/-- A run that ends before the end of the text ends there whatever follows. -/
theorem run_append {text chars rest : List Char} (h : run test text = .read chars rest)
    (hne : rest ≠ []) (tail : List Char) : run test (text ++ tail) = .read chars (rest ++ tail) := by
  obtain ⟨rfl, hchars, hstops⟩ := run_inv h
  obtain ⟨c, others, rfl⟩ := List.exists_cons_of_ne_nil hne
  rw [List.append_assoc]
  exact run_read hchars (stops_cons.mpr (stops_cons.mp hstops))

theorem crisp_run (hwall : isHard wall = true) (htest : ∀ c, test c = true → isSoft c = true) :
    (run test).Crisp wall where
  front hread := by
    obtain ⟨rfl, hchars, -⟩ := run_inv hread
    exact ⟨_, rfl, fun c hc => htest c (hchars c hc)⟩
  place hstuck := by cases hstuck
  ignores {text} tail hmem := by
    obtain ⟨chars, rest, hread⟩ : ∃ chars rest, run test text = .read chars rest := ⟨_, _, rfl⟩
    obtain ⟨rfl, hchars, -⟩ := run_inv hread
    have hmem := wall_mem_of_soft hwall (fun c hc => htest c (hchars c hc)) hmem
    exact Or.inl ⟨chars, rest, hread, run_append hread (List.ne_nil_of_mem hmem) tail⟩

theorem crisp_notNext : (notNext test).Crisp wall where
  front hread := by
    obtain ⟨rfl, -⟩ := notNext_inv hread
    exact ⟨[], rfl, by simp⟩
  place {text place} hstuck := by
    cases text with
    | nil => cases hstuck
    | cons c others =>
      simp only [notNext] at hstuck
      split at hstuck <;> cases hstuck
      exact List.suffix_refl _
  ignores {text} tail hmem := by
    obtain ⟨c, others, rfl⟩ := List.exists_cons_of_ne_nil (List.ne_nil_of_mem hmem)
    cases htest : test c with
    | true =>
      have hstuck : ∀ others, (notNext test).Refuses (c :: others) := fun others =>
        ⟨c :: others, by simp only [notNext, htest, if_true]⟩
      exact Or.inr ⟨hstuck others, hstuck (others ++ tail)⟩
    | false =>
      exact Or.inl ⟨(), _, notNext_read (stops_cons.mpr htest), notNext_read (stops_cons.mpr htest)⟩

theorem crisp_run1 (hwall : isHard wall = true) (htest : ∀ c, test c = true → isSoft c = true) :
    (run1 test).Crisp wall :=
  (crisp_satisfying htest).bind hwall fun _ => (crisp_run hwall htest).bind hwall fun _ =>
    crisp_pure _

end Crisp

end Reader

/-! ### Spellings -/

namespace Token

variable {wall : Char} {spellings : List (List Char)} {text rest : List Char}

/-- A text that holds a character which the start does not have starts so or not whatever follows. -/
theorem afterStart?_append {start : List Char} (hstart : wall ∉ start) (hmem : wall ∈ text)
    (tail : List Char) :
    afterStart? start (text ++ tail) = (afterStart? start text).map (· ++ tail) := by
  fun_induction afterStart? start text with
  | case1 text => rfl
  | case2 => cases hmem
  | case3 c start rest ih =>
    obtain ⟨hne, hstart⟩ := not_or.mp (mt List.mem_cons.mpr hstart)
    have hmem : wall ∈ rest := (List.mem_cons.mp hmem).resolve_left hne
    rw [List.cons_append, afterStart?, if_pos rfl, ih hstart hmem]
  | case4 a start b rest hne => rw [List.cons_append, afterStart?, if_neg hne, Option.map_none]

theorem oneOf_front {value : String} (h : oneOf spellings text = .read value rest) :
    ∃ spelling ∈ spellings, text = spelling ++ rest := by
  induction spellings with
  | nil => cases h
  | cons spelling others ih =>
    simp only [oneOf] at h
    split at h
    · rename_i hafter
      cases h
      exact ⟨spelling, List.mem_cons_self, afterStart?_eq_some hafter⟩
    · obtain ⟨other, hother, htext⟩ := ih h
      exact ⟨other, List.mem_cons_of_mem _ hother, htext⟩

theorem oneOf_stuck_inv {place : List Char} (h : oneOf spellings text = .stuck place) :
    place = text := by
  induction spellings with
  | nil =>
    cases h
    rfl
  | cons spelling others ih =>
    simp only [oneOf] at h
    split at h
    · cases h
    · exact ih h

theorem oneOf_ignores (hall : ∀ spelling ∈ spellings, wall ∉ spelling) (hmem : wall ∈ text)
    (tail : List Char) : (oneOf spellings).Ignores tail text := by
  induction spellings with
  | nil => exact Or.inr ⟨⟨_, rfl⟩, ⟨_, rfl⟩⟩
  | cons spelling others ih =>
    obtain ⟨hspelling, hothers⟩ := List.forall_mem_cons.mp hall
    have hafter := afterStart?_append hspelling hmem tail
    simp only [Ignores, Refuses, oneOf, hafter]
    cases afterStart? spelling text with
    | none => exact ih hothers
    | some rest => exact Or.inl ⟨_, rest, rfl, rfl⟩

theorem crisp_oneOf (hwall : isHard wall = true)
    (hall : ∀ spelling ∈ spellings, ∀ c ∈ spelling, isSoft c = true) :
    (oneOf spellings).Crisp wall where
  front hread := by
    obtain ⟨spelling, hspelling, rfl⟩ := oneOf_front hread
    exact ⟨spelling, rfl, hall spelling hspelling⟩
  place hstuck := by
    exact oneOf_stuck_inv hstuck ▸ List.suffix_refl _
  ignores tail hmem := by
    refine oneOf_ignores (fun spelling hspelling hmem => ?_) hmem tail
    have hsoft := hall spelling hspelling wall hmem
    rw [isSoft, hwall, Bool.not_true, Bool.and_false] at hsoft
    cases hsoft

/-! ### Tokens -/

section Heeds

variable {α : Type} {n depth depth' : Nat}

/-- A token and the blanks after it. -/
theorem heeds_lexeme {p : Reader α}
    (hrest : ∀ {text a rest}, p text = .read a rest → rest <:+ text)
    (hplace : ∀ {text place}, p text = .stuck place → place <:+ text)
    (hfence : ∀ {text a rest}, skipBlank text = text → p text = .read a rest →
      ∀ after, fenced wall after text depth = fenced wall after rest depth')
    (hignores : ∀ {text tail}, fenced wall tail.length (text ++ tail) depth = true →
      p.Ignores tail text) : (lexeme p).Heeds n wall depth depth' where
  rest _ hread := by
    obtain ⟨next, hfirst, rfl⟩ := lexeme_inv hread
    exact (skipBlank_suffix next).trans (hrest hfirst)
  place _ hstuck := by
    rcases bind_stuck_inv hstuck with hstuck | ⟨a, next, -, hstuck⟩
    · exact hplace hstuck
    · cases hstuck
  token _ _ hread := by
    obtain ⟨next, -, rfl⟩ := lexeme_inv hread
    exact skipBlank_skipBlank next
  fence _ htoken hread after := by
    obtain ⟨next, hfirst, rfl⟩ := lexeme_inv hread
    rw [hfence htoken hfirst, fenced_skipBlank]
  ignores {text tail} _ htoken hfenced := by
    rcases hignores hfenced with ⟨a, next, hread, hread'⟩ | ⟨hrefuses, hrefuses'⟩
    · rw [hfence htoken hread'] at hfenced
      refine Or.inl ⟨a, skipBlank next, lexeme_read hread, ?_⟩
      rw [lexeme_read hread', skipBlank_append_of_fenced hfenced]
    · exact Or.inr ⟨lexeme_refuses hrefuses, lexeme_refuses hrefuses'⟩

/-- A token of soft characters stands at one depth. -/
theorem heeds_crisp {p : Reader α} (hwall : isHard wall = true) (hp : p.Crisp wall) :
    (lexeme p).Heeds n wall depth depth := by
  refine heeds_lexeme (fun hread => ?_) hp.place (fun _ hread after => ?_)
    fun hfenced => hp.ignores _ (wall_mem hfenced)
  · obtain ⟨chars, rfl, -⟩ := hp.front hread
    exact List.suffix_append chars _
  · obtain ⟨chars, rfl, hsoft⟩ := hp.front hread
    exact fenced_soft _ hwall hsoft

theorem isSoft_of_isPart {c : Char} (h : Word.isPart c = true) : isSoft c = true := by
  have hall : ∀ d ∈ ['(', ')', '{', '}', ';'], Word.isPart d = false :=
    forall_mem_of_all (by decide)
  cases hhard : isHard c with
  | true =>
    rw [hall c (List.contains_iff_mem.mp hhard)] at h
    cases h
  | false =>
    rw [isSoft, isPlain_of_isPart h, hhard]
    rfl

theorem isSoft_of_isDigit {c : Char} (h : c.isDigit = true) : isSoft c = true :=
  isSoft_of_isPart (isPart_of_isDigit h)

theorem isSoft_of_contains {choices : List Char} (hall : choices.all isSoft = true) (c : Char)
    (h : choices.contains c = true) : isSoft c = true :=
  List.all_eq_true.mp hall c (List.contains_iff_mem.mp h)

theorem isSoft_of_beq {c d : Char} (hd : isSoft d = true) (h : (c == d) = true) :
    isSoft c = true := by
  rwa [beq_iff_eq.mp h]

theorem soft_spellings (h : spellings.all (fun spelling => spelling.all isSoft) = true) :
    ∀ spelling ∈ spellings, ∀ c ∈ spelling, isSoft c = true :=
  fun spelling hspelling => List.all_eq_true.mp (List.all_eq_true.mp h spelling hspelling)

variable (hwall : isHard wall = true)

include hwall

/-! #### Words -/

theorem heeds_word : word.Heeds n wall depth depth :=
  heeds_crisp hwall ((crisp_satisfying fun _ hc => isSoft_of_isPart (isPart_of_isStart hc)).bind hwall
    fun _ => (crisp_run hwall fun _ => isSoft_of_isPart).bind hwall fun _ => crisp_pure _)

theorem heeds_keyword (expected : String) : (keyword expected).Heeds n wall depth depth :=
  (heeds_word hwall).guarded _

theorem heeds_wordIn (expected : List String) : (wordIn expected).Heeds n wall depth depth :=
  (heeds_word hwall).guarded _

theorem heeds_identifier : identifier.Heeds n wall depth depth :=
  (heeds_word hwall).guarded _

/-! #### Literals -/

theorem crisp_maybe {choices : List Char} (hall : choices.all isSoft = true) :
    (maybe choices).Crisp wall :=
  (crisp_satisfying (isSoft_of_contains hall)).branch hwall (fun _ => crisp_pure _) (crisp_pure _)

theorem crisp_exponent : exponent.Crisp wall :=
  (crisp_satisfying (isSoft_of_contains rfl)).bind hwall fun _ =>
    (crisp_maybe hwall rfl).bind hwall fun _ =>
      (crisp_run1 hwall fun _ => isSoft_of_isDigit).bind hwall fun _ => crisp_pure _

theorem crisp_maybeExponent : maybeExponent.Crisp wall :=
  (crisp_exponent hwall).branch hwall (fun _ => crisp_pure _) (crisp_pure _)

omit hwall in
theorem crisp_point : (exactly '.').Crisp wall :=
  crisp_satisfying fun _ hc => isSoft_of_beq rfl hc

theorem crisp_pointedNumber : pointedNumber.Crisp wall :=
  (crisp_run1 hwall fun _ => isSoft_of_isDigit).bind hwall fun _ =>
    crisp_point.bind hwall fun _ =>
      (crisp_run hwall fun _ => isSoft_of_isDigit).bind hwall fun _ =>
        (crisp_maybeExponent hwall).bind hwall fun _ => crisp_pure _

theorem crisp_fractionNumber : fractionNumber.Crisp wall :=
  crisp_point.bind hwall fun _ =>
    (crisp_run1 hwall fun _ => isSoft_of_isDigit).bind hwall fun _ =>
      (crisp_maybeExponent hwall).bind hwall fun _ => crisp_pure _

theorem crisp_scaledNumber : scaledNumber.Crisp wall :=
  (crisp_run1 hwall fun _ => isSoft_of_isDigit).bind hwall fun _ =>
    (crisp_exponent hwall).bind hwall fun _ => crisp_pure _

theorem heeds_floatLiteral : floatLiteral.Heeds n wall depth depth := by
  refine heeds_crisp hwall (Crisp.bind hwall ?_ fun _ => ?_)
  · exact (crisp_pointedNumber hwall).orElse
      ((crisp_fractionNumber hwall).orElse (crisp_scaledNumber hwall))
  · exact (crisp_maybe hwall rfl).bind hwall fun _ => crisp_notNext.bind hwall fun _ => crisp_pure _

theorem crisp_hexNumber : hexNumber.Crisp wall := by
  have hspellings : ∀ spelling ∈ [['0', 'x'], ['0', 'X']], ∀ c ∈ spelling, isSoft c = true :=
    soft_spellings rfl
  exact (crisp_oneOf hwall hspellings).bind hwall fun _ =>
    (crisp_run1 hwall fun _ hc => isSoft_of_isPart (isPart_of_isHexDigit hc)).bind hwall fun _ =>
      crisp_pure _

theorem heeds_intLiteral : intLiteral.Heeds n wall depth depth := by
  refine heeds_crisp hwall (Crisp.bind hwall ?_ fun _ => ?_)
  · exact (crisp_hexNumber hwall).orElse (crisp_run1 hwall fun _ => isSoft_of_isDigit)
  · exact (crisp_maybe hwall rfl).bind hwall fun _ => crisp_notNext.bind hwall fun _ => crisp_pure _

/-! #### Operators -/

theorem heeds_equals : equals.Heeds n wall depth depth :=
  heeds_crisp hwall ((crisp_satisfying fun _ hc => isSoft_of_beq rfl hc).bind hwall
    fun _ => crisp_notNext)

theorem heeds_update : update.Heeds n wall depth depth := by
  have hspellings : ∀ spelling ∈ [['+', '+'], ['-', '-']], ∀ c ∈ spelling, isSoft c = true :=
    soft_spellings rfl
  exact heeds_crisp hwall (crisp_oneOf hwall hspellings)

/-- An operator may start with a slash, which is soft where a token starts. -/
theorem heeds_operator : operator.Heeds n wall depth depth := by
  have hsoft : ∀ spelling ∈ operators, spelling = ['/'] ∨ spelling = ['/', '='] ∨
      ∀ c ∈ spelling, isSoft c = true := by
    intro spelling hspelling
    have hall : operators.all (fun spelling => spelling == ['/'] || spelling == ['/', '='] ||
        spelling.all isSoft) = true := by decide
    have hcases := List.all_eq_true.mp hall spelling hspelling
    rw [Bool.or_eq_true, Bool.or_eq_true, beq_iff_eq, beq_iff_eq, or_assoc] at hcases
    exact hcases.imp_right (Or.imp_right List.all_eq_true.mp)
  have hfree : ∀ spelling ∈ operators, wall ∉ spelling := by
    intro spelling hspelling hmem
    have hall : operators.all (fun spelling => spelling.all fun c => !isHard c) = true := by decide
    have hfalse := List.all_eq_true.mp (List.all_eq_true.mp hall spelling hspelling) wall hmem
    rw [hwall] at hfalse
    cases hfalse
  refine heeds_lexeme (fun hread => ?_) (fun hstuck => ?_) (fun htoken hread after => ?_)
    fun hfenced => oneOf_ignores hfree (wall_mem hfenced) _
  · obtain ⟨spelling, -, rfl⟩ := oneOf_front hread
    exact List.suffix_append spelling _
  · exact oneOf_stuck_inv hstuck ▸ List.suffix_refl _
  · obtain ⟨spelling, hspelling, rfl⟩ := oneOf_front hread
    rcases hsoft spelling hspelling with rfl | rfl | hspelling
    · exact fenced_slash hwall htoken
    · exact (fenced_slash hwall htoken).trans
        (fenced_soft_cons _ hwall rfl)
    · exact fenced_soft _ hwall hspelling

omit hwall

/-! #### Punctuation and directives -/

theorem heeds_punct {c : Char}
    (hfence : ∀ after rest, fenced wall after (c :: rest) depth = fenced wall after rest depth') :
    (punct c).Heeds n wall depth depth' := by
  have hinv : ∀ {text rest : List Char} {a : Unit},
      (exactly c >>= fun _ => pure () : Reader Unit) text = .read a rest → text = c :: rest := by
    intro text rest a hread
    obtain ⟨d, next, hfirst, hlast⟩ := bind_inv hread
    obtain ⟨rfl, hd⟩ := satisfying_inv hfirst
    cases hlast
    rw [beq_iff_eq.mp hd]
  refine heeds_lexeme (fun hread => ?_) (fun hstuck => ?_) (fun _ hread after => ?_)
    fun hfenced => ?_
  · rw [hinv hread]
    exact List.suffix_cons c _
  · rcases bind_stuck_inv hstuck with hstuck | ⟨_, _, -, hstuck⟩
    · exact satisfying_stuck_inv hstuck ▸ List.suffix_refl _
    · cases hstuck
  · rw [hinv hread, hfence]
  · exact (satisfying_ignores _ (List.ne_nil_of_mem (wall_mem hfenced))).bind
      fun _ rest _ _ => Or.inl ⟨(), rest, rfl, rfl⟩

theorem heeds_softPunct {c : Char} (hwall : isHard wall = true) (hc : isSoft c = true) :
    (punct c).Heeds n wall depth depth :=
  heeds_punct fun _ rest => fenced_soft_cons rest hwall hc

theorem heeds_open {c : Char} (hc : c = '(' ∨ c = '{') (h : Passable wall c depth) :
    (punct c).Heeds n wall depth (depth + 1) :=
  heeds_punct fun _ rest => fenced_open rest hc h

theorem heeds_close {c : Char} (hc : c = ')' ∨ c = '}') :
    (punct c).Heeds n wall (depth + 1) depth :=
  heeds_punct fun _ rest => fenced_close rest hc

theorem heeds_semicolon (h : Passable wall ';' depth) : (punct ';').Heeds n wall depth depth :=
  heeds_punct fun _ rest => fenced_semicolon rest h

theorem heeds_directive : directive.Heeds n wall depth depth := by
  have hinv : ∀ {text rest : List Char} {a : String}, (do
      let hash ← exactly '#'
      let text ← run (· != '\n')
      return String.ofList (trimEnd (hash :: text)) : Reader String) text = .read a rest →
        ∃ line, text = '#' :: line ∧ rest = line.dropWhile (· != '\n') := by
    intro text rest a hread
    obtain ⟨hash, line, hfirst, hsecond⟩ := bind_inv hread
    obtain ⟨rfl, hhash⟩ := satisfying_inv hfirst
    obtain ⟨chars, next, hline, hlast⟩ := bind_inv hsecond
    cases hlast
    cases hline
    exact ⟨line, by rw [beq_iff_eq.mp hhash], rfl⟩
  refine heeds_lexeme (fun hread => ?_) (fun hstuck => ?_) (fun _ hread after => ?_)
    fun {text tail} hfenced => ?_
  · obtain ⟨line, rfl, rfl⟩ := hinv hread
    exact (List.dropWhile_suffix _).trans (List.suffix_cons '#' line)
  · rcases bind_stuck_inv hstuck with hstuck | ⟨_, _, -, hstuck⟩
    · exact satisfying_stuck_inv hstuck ▸ List.suffix_refl _
    · rcases bind_stuck_inv hstuck with hstuck | ⟨_, _, -, hstuck⟩ <;> cases hstuck
  · obtain ⟨line, rfl, rfl⟩ := hinv hread
    rw [fenced_hash]
  · refine (satisfying_ignores _ (List.ne_nil_of_mem (wall_mem hfenced))).bind
      fun hash line hfirst _ => ?_
    obtain ⟨rfl, hhash⟩ := satisfying_inv hfirst
    rw [List.cons_append, beq_iff_eq.mp hhash, fenced_hash] at hfenced
    -- the line of the directive ends before the fence
    obtain ⟨more, hsuffix, hlength⟩ := hasWall_of_fenced hfenced
    have hle := hsuffix.length_le
    rw [List.length_cons] at hle
    have hline : line.dropWhile (· != '\n') ≠ [] := by
      intro hempty
      rw [List.dropWhile_append, hempty, List.isEmpty_nil, if_pos rfl] at hle
      have := length_dropWhile_le (· != '\n') tail
      omega
    obtain ⟨chars, rest, hrun⟩ : ∃ chars rest, run (· != '\n') line = .read chars rest :=
      ⟨_, _, rfl⟩
    have hne : rest ≠ [] := by
      cases hrun
      exact hline
    exact Ignores.bind (Or.inl ⟨chars, rest, hrun, run_append hrun hne tail⟩)
      fun chars rest _ _ => Or.inl ⟨_, rest, rfl, rfl⟩

end Heeds

end Token

end GlslShrink
