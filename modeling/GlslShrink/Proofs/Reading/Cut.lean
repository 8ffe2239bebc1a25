import GlslShrink.Proofs.Reading.FencedGrammar

/-!
Cutting a text off after what was read. What a shader has at its top ends with a semicolon or with
a brace. Either is a fence for the tokens in front of it, so they are read in the same way if the
text behind it is missing (`Reader.Sealed`), and the readers that were tried before get stuck there
as well (`Reader.Declines`). So what was read at the top of a shader is also read if the text ends
right after it (`Statement.topLevel_cut`).
-/

set_option autoImplicit false

namespace GlslShrink

open Token Text

/-! ### Readers that end at a fence -/

namespace Reader

variable {α β : Type}

/-- On texts of fewer than `n` characters: what was read is also read if the text ends after it. -/
structure Cuts (n : Nat) (p : Reader α) : Prop where
  rest : ∀ {text a rest}, text.length < n → p text = .read a rest → rest <:+ text
  token : ∀ {text a rest}, text.length < n → skipBlank text = text → p text = .read a rest →
    skipBlank rest = rest
  cut : ∀ {text tail a rest}, (text ++ tail).length < n → skipBlank (text ++ tail) = text ++ tail →
    p (text ++ tail) = .read a (rest ++ tail) → p text = .read a rest

/-- What was read is also read if the text ends after it, and one of the walls is a fence for what
comes after. -/
structure Sealed (n : Nat) (walls : List Char) (p : Reader α) : Prop extends p.Cuts n where
  fence : ∀ {text tail a rest}, (text ++ tail).length < n →
    skipBlank (text ++ tail) = text ++ tail → p (text ++ tail) = .read a (rest ++ tail) →
    ∃ wall ∈ walls, fenced wall tail.length (text ++ tail) 0 = true

/-- In front of the fence, a text that is refused with a tail is refused without it. -/
def Declines (n : Nat) (wall : Char) (p : Reader α) : Prop :=
  ∀ ⦃text tail⦄, (text ++ tail).length < n → skipBlank (text ++ tail) = text ++ tail →
    fenced wall tail.length (text ++ tail) 0 = true → p.Refuses (text ++ tail) → p.Refuses text

/-- The reader always reads something. -/
def Accepts (p : Reader α) : Prop :=
  ∀ text, ¬ p.Refuses text

theorem accepts_pure (a : α) : (pure a : Reader α).Accepts := by
  rintro text ⟨place, hplace⟩
  cases hplace

section Rules

variable {n : Nat} {wall : Char} {walls others : List Char} {p q : Reader α}

theorem sealed_zero (p : Reader α) : p.Sealed 0 walls where
  rest hlength := absurd hlength (Nat.not_lt_zero _)
  token hlength := absurd hlength (Nat.not_lt_zero _)
  cut hlength := absurd hlength (Nat.not_lt_zero _)
  fence hlength := absurd hlength (Nat.not_lt_zero _)

/-! #### Refusing without the tail -/

theorem Heeds.declines {depth : Nat} (hp : p.Heeds n wall 0 depth) : p.Declines n wall := by
  intro text tail hlength htoken hfenced hrefuses
  rcases hp.ignores hlength htoken hfenced with ⟨a, rest, -, hread⟩ | ⟨hrefuses', -⟩
  · exact absurd hrefuses (not_refuses_of_read hread)
  · exact hrefuses'

/-- A character that does not start the text with the tail does not start it without. -/
theorem punct_refuses_cut {c : Char} {text tail : List Char}
    (h : (punct c).Refuses (text ++ tail)) : (punct c).Refuses text := by
  refine punct_refuses fun hhead => ?_
  obtain ⟨more, rfl⟩ := List.head?_eq_some_iff.mp hhead
  exact not_refuses_of_read (punct_read c (more ++ tail)) h

theorem declines_punct (c : Char) : (punct c).Declines n wall :=
  fun _ _ _ _ _ hrefuses => punct_refuses_cut hrefuses

theorem Heeds.bindDeclines {f : α → Reader β} (hp : p.Heeds n wall 0 0)
    (hf : ∀ a, (f a).Declines n wall) : (p >>= f).Declines n wall := by
  intro text tail hlength htoken hfenced hrefuses
  rcases hp.ignores hlength htoken hfenced with ⟨a, rest, hread, hread'⟩ | ⟨hrefuses', -⟩
  · rw [Refuses, bind_read f hread'] at hrefuses
    have hle := (hp.rest hlength hread').length_le
    rw [hp.fence hlength htoken hread'] at hfenced
    exact (hf a (by omega) (hp.token hlength htoken hread') hfenced hrefuses).bind_of_read hread
  · exact hrefuses'.bind f

theorem Declines.bind {f : α → Reader β} (hp : p.Declines n wall) (hf : ∀ a, (f a).Accepts) :
    (p >>= f).Declines n wall := by
  intro text tail hlength htoken hfenced hrefuses
  rcases read_or_refuses p (text ++ tail) with ⟨a, rest, hread⟩ | hrefuses'
  · rw [Refuses, bind_read f hread] at hrefuses
    exact absurd hrefuses (hf a rest)
  · exact (hp hlength htoken hfenced hrefuses').bind f

theorem Declines.branch {f : α → Reader β} {o : Reader β} (hp : p.Declines n wall)
    (hf : ∀ a, (f a).Accepts) (ho : o.Declines n wall) : (p.branch f o).Declines n wall := by
  intro text tail hlength htoken hfenced hrefuses
  rcases read_or_refuses p (text ++ tail) with ⟨a, rest, hread⟩ | hfirst
  · rw [Refuses, branch_read f o hread] at hrefuses
    exact absurd hrefuses (hf a rest)
  · rw [Refuses, branch_refuses f o hfirst] at hrefuses
    rw [Refuses, branch_refuses f o (hp hlength htoken hfenced hfirst)]
    exact ho hlength htoken hfenced hrefuses

/-! #### Reading without the tail -/

theorem cuts_pure (a : α) : (pure a : Reader α).Cuts n where
  rest _ hread := by
    cases hread
    exact List.suffix_refl _
  token _ htoken hread := by
    cases hread
    exact htoken
  cut {text tail b rest} _ _ hread := by
    rw [pure_apply] at hread
    injection hread with hvalue hrest
    rw [List.append_cancel_right hrest, pure_apply, hvalue]

theorem cuts_punct (c : Char) : (punct c).Cuts n where
  rest {text a rest} _ hread := by
    obtain ⟨more, rfl⟩ := List.head?_eq_some_iff.mp (punct_inv hread)
    rw [punct_read] at hread
    cases hread
    exact (skipBlank_suffix more).trans (List.suffix_cons c more)
  token {text a rest} _ _ hread := by
    obtain ⟨more, rfl⟩ := List.head?_eq_some_iff.mp (punct_inv hread)
    rw [punct_read] at hread
    cases hread
    exact skipBlank_skipBlank more
  cut {text tail a rest} _ _ hread := by
    cases text with
    | nil =>
      -- nothing but the tail is there, and the tail is left
      have hle := takes_punct c _ _ _ hread
      rw [List.length_append, List.nil_append] at hle
      omega
    | cons d more =>
      obtain ⟨more', hmore⟩ := List.head?_eq_some_iff.mp (punct_inv hread)
      cases hmore
      rw [List.cons_append, punct_read] at hread
      injection hread with hvalue hrest
      rw [punct_read, skipBlank_of_append hrest]

/-- The first character is a fence for what comes after. -/
theorem Cuts.sealed {c : Char} (hp : p.Cuts n) (hc : isPlain c = true) (htakes : p.Takes 1)
    (hhead : ∀ {text a rest}, p text = .read a rest → text.head? = some c) : p.Sealed n [c] where
  toCuts := hp
  fence {text tail a rest} _ _ hread := by
    have hle := htakes _ _ _ hread
    obtain ⟨more, hmore⟩ := List.head?_eq_some_iff.mp (hhead hread)
    rw [hmore, List.length_append, List.length_cons] at hle
    exact ⟨c, List.mem_singleton_self c, hmore ▸ fenced_wall hc (by omega)⟩

theorem sealed_punct {c : Char} (hc : isPlain c = true) : (punct c).Sealed n [c] :=
  (cuts_punct c).sealed hc (takes_punct c) punct_inv

/-- What the second of two readers leaves is left by the first one as well. -/
theorem Cuts.exists_append {p : Reader α} {f : α → Reader β} (hf : ∀ a, (f a).Cuts n)
    {text rest tail : List Char} {b : β} (hp : ∀ a rest, p text = .read a rest → rest.length < n)
    (hread : (p >>= f) text = .read b (rest ++ tail)) :
    ∃ a next, p text = .read a (next ++ tail) ∧ f a (next ++ tail) = .read b (rest ++ tail) := by
  obtain ⟨a, next, hfirst, hsecond⟩ := bind_inv hread
  obtain ⟨front, hfront⟩ := (hf a).rest (hp a next hfirst) hsecond
  rw [← List.append_assoc] at hfront
  subst hfront
  exact ⟨a, front ++ rest, hfirst, hsecond⟩

theorem Cuts.bind {f : α → Reader β} (hp : p.Cuts n) (hf : ∀ a, (f a).Cuts n) :
    (p >>= f).Cuts n where
  rest hlength hread := by
    obtain ⟨a, next, hfirst, hsecond⟩ := bind_inv hread
    have hsuffix := hp.rest hlength hfirst
    have hle := hsuffix.length_le
    exact ((hf a).rest (by omega) hsecond).trans hsuffix
  token hlength htoken hread := by
    obtain ⟨a, next, hfirst, hsecond⟩ := bind_inv hread
    have hle := (hp.rest hlength hfirst).length_le
    exact (hf a).token (by omega) (hp.token hlength htoken hfirst) hsecond
  cut hlength htoken hread := by
    obtain ⟨a, next, hfirst, hsecond⟩ := Cuts.exists_append hf
      (fun a rest hfirst => Nat.lt_of_le_of_lt (hp.rest hlength hfirst).length_le hlength) hread
    have hle := (hp.rest hlength hfirst).length_le
    rw [bind_read f (hp.cut hlength htoken hfirst)]
    exact (hf a).cut (by omega) (hp.token hlength htoken hfirst) hsecond

theorem Sealed.bind {f : α → Reader β} (hp : p.Sealed n walls) (hf : ∀ a, (f a).Cuts n) :
    (p >>= f).Sealed n walls where
  toCuts := hp.toCuts.bind hf
  fence hlength htoken hread := by
    obtain ⟨a, next, hfirst, -⟩ := Cuts.exists_append hf
      (fun a rest hfirst => Nat.lt_of_le_of_lt (hp.rest hlength hfirst).length_le hlength) hread
    exact hp.fence hlength htoken hfirst

theorem Sealed.mono (hp : p.Sealed n walls) (h : walls ⊆ others) : p.Sealed n others where
  toCuts := hp.toCuts
  fence hlength htoken hread := by
    obtain ⟨wall, hwall, hfenced⟩ := hp.fence hlength htoken hread
    exact ⟨wall, h hwall, hfenced⟩

/-- Tokens that keep to the fences at which the next reader ends. -/
theorem Heeds.bindSealed {f : α → Reader β} (hne : walls ≠ [])
    (hp : ∀ wall ∈ walls, p.Heeds (n + 1) wall 0 0) (htakes : p.Takes 1)
    (hf : ∀ a, (f a).Sealed n walls) : (p >>= f).Sealed (n + 1) walls := by
  obtain ⟨some, hsome⟩ := List.exists_mem_of_ne_nil walls hne
  have hany := hp some hsome
  have hcuts : ∀ {text tail : List Char} {b : β} {rest : List Char},
      (text ++ tail).length < n + 1 → skipBlank (text ++ tail) = text ++ tail →
      (p >>= f) (text ++ tail) = .read b (rest ++ tail) →
      ∃ wall ∈ walls, fenced wall tail.length (text ++ tail) 0 = true ∧
        (p >>= f) text = .read b rest := by
    intro text tail b rest hlength htoken hread
    have hless : ∀ a rest, p (text ++ tail) = .read a rest → rest.length < n := by
      intro a rest hfirst
      have := htakes _ _ _ hfirst
      omega
    obtain ⟨a, next, hfirst, hsecond⟩ := Cuts.exists_append (fun a => (hf a).toCuts) hless hread
    have htoken' := hany.token hlength htoken hfirst
    obtain ⟨wall, hwall, hfenced⟩ := (hf a).fence (hless _ _ hfirst) htoken' hsecond
    -- the fence behind the next reader is one behind these tokens
    rw [← (hp wall hwall).fence hlength htoken hfirst] at hfenced
    refine ⟨wall, hwall, hfenced, ?_⟩
    rcases (hp wall hwall).ignores hlength htoken hfenced with
      ⟨a', next', hcut, hfirst'⟩ | ⟨-, hrefuses⟩
    · rw [hfirst] at hfirst'
      injection hfirst' with hvalue hnext
      rw [bind_read f hcut, ← hvalue, ← List.append_cancel_right hnext]
      exact (hf a).cut (hless _ _ hfirst) htoken' hsecond
    · exact absurd hrefuses (not_refuses_of_read hfirst)
  refine ⟨⟨fun hlength hread => ?_, fun hlength htoken hread => ?_,
    fun hlength htoken hread => ?_⟩, fun hlength htoken hread => ?_⟩
  · obtain ⟨a, next, hfirst, hsecond⟩ := bind_inv hread
    have := htakes _ _ _ hfirst
    exact ((hf a).rest (by omega) hsecond).trans (hany.rest hlength hfirst)
  · obtain ⟨a, next, hfirst, hsecond⟩ := bind_inv hread
    have := htakes _ _ _ hfirst
    exact (hf a).token (by omega) (hany.token hlength htoken hfirst) hsecond
  · obtain ⟨_, _, -, hcut⟩ := hcuts hlength htoken hread
    exact hcut
  · obtain ⟨wall, hwall, hfenced, -⟩ := hcuts hlength htoken hread
    exact ⟨wall, hwall, hfenced⟩

theorem branch_inv_bind {p : Reader α} {f : α → Reader β} {o : Reader β} {text rest : List Char}
    {b : β} (h : p.branch f o text = .read b rest) :
    (p >>= f) text = .read b rest ∨ p.Refuses text ∧ o text = .read b rest := by
  rcases branch_inv h with ⟨a, next, hfirst, hsecond⟩ | hotherwise
  · exact Or.inl ((bind_read f hfirst).trans hsecond)
  · exact Or.inr hotherwise

/-- Going on after a character, or doing otherwise where another one stands. -/
theorem Sealed.branch {c : Char} {f : Unit → Reader β} {o : Reader β} (hc : isPlain c = true)
    (hf : ∀ a, (f a).Cuts n) (ho : o.Sealed n walls) :
    ((punct c).branch f o).Sealed n (c :: walls) := by
  have hseq : (punct c >>= f).Sealed n [c] := (sealed_punct hc).bind hf
  refine ⟨⟨fun hlength hread => ?_, fun hlength htoken hread => ?_,
    fun hlength htoken hread => ?_⟩, fun hlength htoken hread => ?_⟩
  · rcases branch_inv_bind hread with hread | ⟨-, hread⟩
    · exact hseq.rest hlength hread
    · exact ho.rest hlength hread
  · rcases branch_inv_bind hread with hread | ⟨-, hread⟩
    · exact hseq.token hlength htoken hread
    · exact ho.token hlength htoken hread
  · rcases branch_inv_bind hread with hread | ⟨hrefuses, hread⟩
    · obtain ⟨a, next, hfirst, hsecond⟩ := bind_inv (hseq.cut hlength htoken hread)
      exact (branch_read f o hfirst).trans hsecond
    · rw [branch_refuses f o (punct_refuses_cut hrefuses)]
      exact ho.cut hlength htoken hread
  · rcases branch_inv_bind hread with hread | ⟨-, hread⟩
    · exact (hseq.mono (List.cons_subset_cons c (List.nil_subset walls))).fence hlength htoken hread
    · exact (ho.mono (List.subset_cons_self c walls)).fence hlength htoken hread

theorem Cuts.orElse (hp : p.Cuts n) (hq : q.Sealed n walls)
    (hdeclines : ∀ wall ∈ walls, p.Declines n wall) : (p <|> q).Cuts n where
  rest hlength hread := by
    rcases orElse_inv hread with hread | ⟨-, hread⟩
    · exact hp.rest hlength hread
    · exact hq.rest hlength hread
  token hlength htoken hread := by
    rcases orElse_inv hread with hread | ⟨-, hread⟩
    · exact hp.token hlength htoken hread
    · exact hq.token hlength htoken hread
  cut hlength htoken hread := by
    rcases orElse_inv hread with hread | ⟨hrefuses, hread⟩
    · exact orElse_read q (hp.cut hlength htoken hread)
    · obtain ⟨wall, hwall, hfenced⟩ := hq.fence hlength htoken hread
      exact orElse_refuses (hdeclines wall hwall hlength htoken hfenced hrefuses)
        (hq.cut hlength htoken hread)

theorem Sealed.orElse (hp : p.Sealed n walls) (hq : q.Sealed n others)
    (hdeclines : ∀ wall ∈ others, p.Declines n wall) : (p <|> q).Sealed n (walls ++ others) where
  toCuts := hp.toCuts.orElse hq hdeclines
  fence hlength htoken hread := by
    rcases orElse_inv hread with hread | ⟨-, hread⟩
    · exact (hp.mono (List.subset_append_left _ _)).fence hlength htoken hread
    · exact (hq.mono (List.subset_append_right _ _)).fence hlength htoken hread

end Rules

end Reader

/-! ### The top of a shader -/

open Reader

variable {n : Nat}

namespace Declaration

theorem sealed_declaration : declaration.Sealed (n + 1) [';'] := by
  rw [declaration_eq]
  refine Heeds.bindSealed (List.cons_ne_nil _ _) (List.forall_mem_singleton.mpr ?_) takes_body
    fun _ => (sealed_punct rfl).bind fun _ => cuts_pure _
  exact heeds_declared rfl (fun _ => by decide) (fun _ => by decide)

theorem takes_precisionHead : precisionHead.Takes 1 := by
  refine (takes_keyword _).bind (fun _ => ?_) (Nat.le_refl (1 + 0))
  refine takes_precisionQualifier.bind (fun _ => ?_) (Nat.zero_le (1 + 0))
  exact takes_typeName.bind (fun _ => takes_pure _) (Nat.zero_le (1 + 0))

theorem sealed_precisionStatement : precisionStatement.Sealed (n + 1) [';'] := by
  rw [precisionStatement_eq]
  exact Heeds.bindSealed (List.cons_ne_nil _ _)
    (List.forall_mem_singleton.mpr (heeds_precisionHead rfl)) takes_precisionHead
    fun _ => (sealed_punct rfl).bind fun _ => cuts_pure _

theorem declines_precisionStatement {wall : Char} (hwall : isHard wall = true) :
    precisionStatement.Declines n wall := by
  rw [precisionStatement_eq]
  exact (heeds_precisionHead hwall).bindDeclines fun _ =>
    (declines_punct ';').bind fun _ => accepts_pure _

end Declaration

namespace Statement

theorem sealed_statements : (manyUntil statement (punct '}')).Sealed n ['}'] := by
  induction n with
  | zero => exact sealed_zero _
  | succ n ih =>
    rw [manyUntil_eq takes_statement (takes_punct _)]
    have hmore : (do
        let first ← statement
        let others ← manyUntil statement (punct '}')
        return first :: others).Sealed (n + 1) ['}'] :=
      Heeds.bindSealed (List.cons_ne_nil _ _)
        (List.forall_mem_singleton.mpr (heeds_statement rfl (fun _ => by decide)
          (fun _ => by decide) (fun _ => by decide)))
        takes_statement fun _ => ih.bind fun _ => cuts_pure _
    exact (Sealed.branch rfl (fun _ => cuts_pure _) hmore).mono
      (List.cons_subset.mpr ⟨List.mem_singleton_self _, List.Subset.refl _⟩)

theorem sealed_block : (block statement).Sealed n ['{'] :=
  (sealed_punct rfl).bind fun _ => sealed_statements.toCuts.bind fun _ => cuts_pure _

theorem sealed_functionTail (head : List String × Node × String) (parameters : List Node) :
    (functionTail head parameters).Sealed n [';', '{'] :=
  Sealed.branch rfl (fun _ => cuts_pure _) (sealed_block.bind fun _ => cuts_pure _)

theorem takes_functionHead : functionHead.Takes 1 := by
  refine (takes_many Declaration.takes_precisionQualifier).bind (fun _ => ?_) (Nat.le_refl (0 + 1))
  refine Declaration.takes_typeSpecifier.bind (fun _ => ?_) (Nat.le_refl (1 + 0))
  exact takes_identifier.bind (fun _ => takes_pure _) (Nat.zero_le (1 + 0))

theorem takes_functionTail (head : List String × Node × String) (parameters : List Node) :
    (functionTail head parameters).Takes 0 := by
  refine (takes_punct _).branch (fun _ => takes_pure _) ?_ (Nat.zero_le (1 + 0))
  exact takes_block.bind (fun _ => takes_pure _) (Nat.zero_le (1 + 0))

theorem parameterList_head {text rest : List Char} {parameters : List Node}
    (h : Declaration.parameterList text = .read parameters rest) : text.head? = some '(' := by
  obtain ⟨_, next, hfirst, -⟩ := bind_inv h
  exact punct_inv hfirst

theorem sealed_function : function.Sealed (n + 2) ['('] := by
  have hrest : ∀ head, (Declaration.parameterList >>= functionTail head).Sealed (n + 1) ['('] := by
    intro head
    have hends : (Declaration.parameterList >>= functionTail head).Sealed (n + 1) [';', '{'] :=
      Heeds.bindSealed (List.cons_ne_nil _ _)
        (List.forall_mem_cons.mpr ⟨Declaration.heeds_parameterList rfl fun _ => by decide,
          List.forall_mem_singleton.mpr (Declaration.heeds_parameterList rfl fun _ => by decide)⟩)
        Declaration.takes_parameterList (sealed_functionTail head)
    refine hends.toCuts.sealed rfl (Declaration.takes_parameterList.bind
      (takes_functionTail head) (Nat.le_refl (1 + 0))) fun hread => ?_
    obtain ⟨parameters, next, hfirst, -⟩ := bind_inv hread
    exact parameterList_head hfirst
  rw [function_eq]
  exact Heeds.bindSealed (List.cons_ne_nil _ _)
    (List.forall_mem_singleton.mpr (heeds_functionHead rfl fun _ => by decide))
    takes_functionHead hrest

theorem declines_function : function.Declines n ';' := by
  rw [function_eq]
  refine (heeds_functionHead rfl fun _ => by decide).bindDeclines fun head => ?_
  refine (Declaration.heeds_parameterList rfl fun _ => by decide).bindDeclines fun parameters => ?_
  refine (declines_punct ';').branch (fun _ => accepts_pure _) ?_
  refine Declines.bind ?_ fun _ => accepts_pure _
  exact (heeds_functionBody rfl fun _ => by decide).declines

theorem directive_head {text rest : List Char} {value : String}
    (h : Token.directive text = .read value rest) : text.head? = some '#' := by
  obtain ⟨next, hread, -⟩ := lexeme_inv h
  obtain ⟨hash, line, hfirst, -⟩ := bind_inv hread
  obtain ⟨rfl, hhash⟩ := satisfying_inv hfirst
  rw [beq_iff_eq.mp hhash]
  rfl

theorem directive_read {line chars rest : List Char} (h : run (· != '\n') line = .read chars rest) :
    Token.directive ('#' :: line) =
      .read (String.ofList (trimEnd ('#' :: chars))) (skipBlank rest) := by
  refine lexeme_read ?_
  rw [exactly, bind_read _ (satisfying_read line rfl), bind_read _ h]
  rfl

/-- The end of the line in front of a text is not in the text, and neither is what follows. -/
theorem length_skipBlank_dropWhile_lt {text : List Char} (h : text ≠ []) :
    (skipBlank (text.dropWhile (· != '\n'))).length < text.length := by
  obtain ⟨c, rest, rfl⟩ := List.exists_cons_of_ne_nil h
  by_cases hc : c = '\n'
  · subst hc
    rw [List.dropWhile_cons_of_neg Bool.false_ne_true, skipBlank_blank rest rfl]
    exact Nat.lt_succ_of_le (skipBlank_suffix rest).length_le
  · have htest : (c != '\n') = true := bne_iff_ne.mpr hc
    rw [List.dropWhile_cons, if_pos htest]
    exact Nat.lt_succ_of_le
      ((skipBlank_suffix _).trans (List.dropWhile_suffix _)).length_le

theorem directive_cut {text tail rest : List Char} {value : String}
    (h : Token.directive (text ++ tail) = .read value (rest ++ tail)) :
    Token.directive text = .read value rest := by
  by_cases htail : tail = []
  · subst htail
    rwa [List.append_nil, List.append_nil] at h
  cases text with
  | nil =>
    have hle := Token.takes_directive _ _ _ h
    rw [List.length_append, List.nil_append] at hle
    omega
  | cons c line =>
    obtain ⟨more, hmore⟩ := List.head?_eq_some_iff.mp (directive_head h)
    cases hmore
    obtain ⟨chars, next, hline⟩ : ∃ chars next, run (· != '\n') line = .read chars next :=
      ⟨_, _, rfl⟩
    by_cases hnext : next = []
    · -- the line would go on in the tail, of which something would then be missing
      have hdrop : line.dropWhile (· != '\n') = [] := by
        cases hline
        exact hnext
      have hrun : run (· != '\n') (line ++ tail) = .read ((line ++ tail).takeWhile (· != '\n'))
          (tail.dropWhile (· != '\n')) := by
        rw [run, List.dropWhile_append, hdrop, List.isEmpty_nil, if_pos rfl]
      have hlt := length_skipBlank_dropWhile_lt htail
      rw [List.cons_append, directive_read hrun] at h
      injection h with hvalue hrest
      rw [hrest, List.length_append] at hlt
      omega
    · rw [List.cons_append, directive_read (run_append hline hnext tail)] at h
      injection h with hvalue hrest
      rw [directive_read hline, hvalue, skipBlank_of_append hrest]

theorem cuts_directive : directive.Cuts n := by
  have hheeds : ∀ n, Token.directive.Heeds n ';' 0 0 := fun n => Token.heeds_directive
  have htoken : Token.directive.Cuts n :=
    ⟨(hheeds n).rest, (hheeds n).token, fun _ _ hread => directive_cut hread⟩
  exact htoken.bind fun _ => cuts_pure _

theorem cuts_topLevel : topLevel.Cuts (n + 2) := by
  have hlast : (function <|> Declaration.declaration).Sealed (n + 2) ['(', ';'] :=
    sealed_function.orElse Declaration.sealed_declaration
      (List.forall_mem_singleton.mpr declines_function)
  have hothers : (Declaration.precisionStatement <|> function <|> Declaration.declaration).Sealed
      (n + 2) [';', '(', ';'] :=
    Declaration.sealed_precisionStatement.orElse hlast
      (List.forall_mem_cons.mpr ⟨Declaration.declines_precisionStatement rfl,
        List.forall_mem_singleton.mpr (Declaration.declines_precisionStatement rfl)⟩)
  exact cuts_directive.orElse hothers fun _ _ => heeds_directive.declines

theorem topLevel_token {text rest : List Char} {node : Node} (htoken : skipBlank text = text)
    (hread : topLevel text = .read node rest) : skipBlank rest = rest :=
  cuts_topLevel.token (Nat.lt_add_of_pos_right (Nat.succ_pos 1)) htoken hread

/-- What was read at the top of a shader is read in the same way if the text ends after it. -/
theorem topLevel_cut {text tail rest : List Char} {node : Node}
    (htoken : skipBlank (text ++ tail) = text ++ tail)
    (hread : topLevel (text ++ tail) = .read node (rest ++ tail)) : topLevel text = .read node rest :=
  cuts_topLevel.cut (Nat.lt_add_of_pos_right (Nat.succ_pos 1)) htoken hread

end Statement

end GlslShrink
