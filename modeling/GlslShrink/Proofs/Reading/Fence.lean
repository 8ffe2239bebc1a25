import GlslShrink.Proofs.Reading.Stripped

/-!
What a reader can see. A reader looks no further than the brackets that it has gone into: whatever
it tries, it comes out of as many as it went into, and most readers do not pass a semicolon either.
A character that a reader cannot pass is a fence (`Text.fenced`). A text may be cut off anywhere
behind a fence, and a reader that keeps to the fence does not notice: it reads the same or gets
stuck as before (`Reader.Heeds`). There is one rule for each way of building readers.
-/

set_option autoImplicit false

namespace GlslShrink

open Token

/-! ### Parts of a text -/

theorem exists_append_of_suffix {α : Type} {rest text tail : List α} (h : rest <:+ text ++ tail)
    (hlength : tail.length ≤ rest.length) : ∃ front, rest = front ++ tail := by
  obtain ⟨front, hfront⟩ :=
    List.suffix_of_suffix_length_le (List.suffix_append text tail) h hlength
  exact ⟨front, hfront.symm⟩

namespace Token

theorem afterComment?_suffix {text rest : List Char} (h : afterComment? text = some rest) :
    rest <:+ text := by
  fun_induction afterComment? text with
  | case1 more =>
    cases h
    exact List.suffix_append ['*', '/'] rest
  | case2 c more _ ih => exact (ih h).trans (List.suffix_cons c more)
  | case3 => cases h

theorem afterComment?_append {text rest : List Char} (h : afterComment? text = some rest)
    (tail : List Char) : afterComment? (text ++ tail) = some (rest ++ tail) := by
  fun_induction afterComment? text with
  | case1 more =>
    cases h
    rfl
  | case2 c more hclose ih =>
    rw [List.cons_append, afterComment?.eq_def]
    split
    · rename_i heq
      obtain ⟨rfl, hmore⟩ := List.cons.inj heq
      cases more with
      | nil => cases h
      | cons d more =>
        obtain ⟨rfl, -⟩ := List.cons.inj hmore
        exact absurd rfl (hclose more rfl)
    · rename_i heq
      cases heq
      exact ih h
    · rename_i heq
      cases heq
  | case3 => cases h

/-- A comment that is closed only in the last part of a text ends there. -/
theorem length_afterComment?_lt_tail {text tail rest : List Char}
    (h : afterComment? text = none) (htail : afterComment? (text ++ tail) = some rest) :
    rest.length < tail.length := by
  fun_induction afterComment? text with
  | case1 more => cases h
  | case2 c more hclose ih =>
    rw [List.cons_append, afterComment?.eq_def] at htail
    split at htail
    · rename_i heq
      obtain ⟨rfl, hmore⟩ := List.cons.inj heq
      cases more with
      | nil =>
        cases htail
        rw [show tail = '/' :: rest from hmore]
        exact Nat.lt_succ_self _
      | cons d more =>
        obtain ⟨rfl, -⟩ := List.cons.inj hmore
        exact absurd rfl (hclose more rfl)
    · rename_i heq
      cases heq
      exact ih h htail
    · rename_i heq
      cases heq
  | case3 => exact length_afterComment?_lt htail

theorem skipBlank_suffix (text : List Char) : skipBlank text <:+ text := by
  fun_induction skipBlank text with
  | case1 => exact List.suffix_refl []
  | case2 rest ih =>
    exact ih.trans ((List.dropWhile_suffix _).trans (List.suffix_append ['/', '/'] rest))
  | case3 rest after hafter ih =>
    exact ih.trans ((afterComment?_suffix hafter).trans (List.suffix_append ['/', '*'] rest))
  | case4 rest hafter => exact List.suffix_refl _
  | case5 c rest _ _ hblank ih => exact ih.trans (List.suffix_cons c rest)
  | case6 c rest _ _ hblank => exact List.suffix_refl _

theorem skipBlank_lineComment (rest : List Char) :
    skipBlank ('/' :: '/' :: rest) = skipBlank (rest.dropWhile (· != '\n')) := by
  rw [skipBlank]

theorem skipBlank_comment {rest after : List Char} (h : afterComment? rest = some after) :
    skipBlank ('/' :: '*' :: rest) = skipBlank after := by
  rw [skipBlank]
  split <;> simp_all

theorem skipBlank_unclosed {rest : List Char} (h : afterComment? rest = none) :
    skipBlank ('/' :: '*' :: rest) = '/' :: '*' :: rest := by
  rw [skipBlank]
  split <;> simp_all

theorem skipBlank_slash_of_ne {rest : List Char} (hline : ∀ more, rest ≠ '/' :: more)
    (hblock : ∀ more, rest ≠ '*' :: more) : skipBlank ('/' :: rest) = '/' :: rest := by
  refine skipBlank_slash fun c hc => ?_
  obtain ⟨more, rfl⟩ := List.head?_eq_some_iff.mp hc
  have hc : c ≠ '/' := by
    rintro rfl
    exact hline more rfl
  have hc' : c ≠ '*' := by
    rintro rfl
    exact hblock more rfl
  simp [hc, hc']

/-- A single slash in front of a tail is skipped together with a part of the tail or not at all. -/
theorem skipBlank_slash_tail (tail : List Char) :
    skipBlank ('/' :: tail) = '/' :: tail ∨ (skipBlank ('/' :: tail)).length < tail.length := by
  cases tail with
  | nil => exact Or.inl (skipBlank_slash (Reader.stops_nil _))
  | cons c tail =>
    by_cases hline : c = '/'
    · subst hline
      have hle := length_skipBlank_le (tail.dropWhile (· != '\n'))
      have hle' := length_dropWhile_le (· != '\n') tail
      rw [skipBlank_lineComment, List.length_cons]
      omega
    by_cases hblock : c = '*'
    · subst hblock
      cases hafter : afterComment? tail with
      | none => exact Or.inl (skipBlank_unclosed hafter)
      | some after =>
        have hle := length_skipBlank_le after
        have hlt := length_afterComment?_lt hafter
        rw [skipBlank_comment hafter, List.length_cons]
        omega
    · exact Or.inl (skipBlank_slash (Reader.stops_cons.mpr (by simp [hline, hblock])))

/-- Blanks that end before the tail of a text are the blanks of the text without the tail. -/
theorem skipBlank_append {text tail : List Char}
    (h : tail.length ≤ (skipBlank (text ++ tail)).length) :
    skipBlank (text ++ tail) = skipBlank text ++ tail := by
  have hwhole : ∀ {rest : List Char}, rest <:+ tail → tail.length ≤ rest.length →
      rest = [] ++ tail := fun hsuffix hlength => hsuffix.eq_of_length_le hlength
  fun_induction skipBlank text with
  | case1 => exact hwhole (skipBlank_suffix tail) h
  | case2 rest ih =>
    rw [List.cons_append, List.cons_append, skipBlank_lineComment, List.dropWhile_append] at h ⊢
    split at h
    · rename_i hempty
      rw [if_pos hempty, List.isEmpty_iff.mp hempty, skipBlank_nil]
      exact hwhole ((skipBlank_suffix _).trans (List.dropWhile_suffix _)) h
    · rename_i hsome
      rw [if_neg hsome]
      exact ih h
  | case3 rest after hafter ih =>
    have hskip : skipBlank ('/' :: '*' :: (rest ++ tail)) = skipBlank (after ++ tail) :=
      skipBlank_comment (afterComment?_append hafter tail)
    rw [List.cons_append, List.cons_append, hskip] at h ⊢
    exact ih h
  | case4 rest hafter =>
    rw [List.cons_append, List.cons_append] at h ⊢
    cases htail : afterComment? (rest ++ tail) with
    | none => exact skipBlank_unclosed htail
    | some after =>
      have hlt := length_afterComment?_lt_tail hafter htail
      have hle := length_skipBlank_le after
      rw [skipBlank_comment htail] at h
      omega
  | case5 c rest _ _ hblank ih =>
    rw [List.cons_append, skipBlank_blank _ hblank] at h ⊢
    exact ih h
  | case6 c rest hline hblock hblank =>
    rw [List.cons_append] at h ⊢
    by_cases hslash : c = '/'
    · subst hslash
      cases rest with
      | nil =>
        rw [List.nil_append] at h ⊢
        rcases skipBlank_slash_tail tail with hsame | hlt
        · exact hsame
        · omega
      | cons d rest =>
        refine skipBlank_slash_of_ne (fun more hmore => hline rest rfl ?_)
          fun more hmore => hblock rest rfl ?_
        · rw [(List.cons.inj hmore).1]
        · rw [(List.cons.inj hmore).1]
    · exact skipBlank_solid _ (by simp [isSolid, hblank, hslash])

/-- Where the blanks end before the tail, they end at the same place without the tail. -/
theorem skipBlank_of_append {text rest tail : List Char}
    (h : skipBlank (text ++ tail) = rest ++ tail) : skipBlank text = rest := by
  have hlength : tail.length ≤ (skipBlank (text ++ tail)).length := by
    rw [h, List.length_append]
    exact Nat.le_add_left _ _
  rw [skipBlank_append hlength] at h
  exact List.append_cancel_right h

end Token

/-! ### Fences -/

namespace Text

/-- The characters that readers pass in pairs, and the semicolon. -/
def isHard (c : Char) : Bool :=
  ['(', ')', '{', '}', ';'].contains c

/-- A character that neither brackets, blanks, comments nor directives start with. -/
def isSoft (c : Char) : Bool :=
  isPlain c && !isHard c

/-- What a character means for a fence that is looked for at some depth of brackets. -/
def fenceAt (wall : Char) (after : Nat) (c : Char) (rest : List Char) (more : Nat → Bool)
    (depth : Nat) : Bool :=
  if depth = 0 ∧ c = wall then decide (after ≤ rest.length)
  else if c = '(' ∨ c = '{' then more (depth + 1)
  else if c = ')' ∨ c = '}' then decide (0 < depth) && more (depth - 1)
  else more depth

/-- Whether the text, read from inside so many brackets, comes to the character `wall` outside of all
of them, and has at least `after` more characters behind it. -/
def fenced (wall : Char) (after : Nat) : List Char → Nat → Bool :=
  scan (fenceAt wall after) (fun _ more => more) (fun _ => false)

section Fence

variable {wall : Char} {after depth : Nat} {text rest : List Char}

theorem fenced_skipBlank (text : List Char) :
    fenced wall after (skipBlank text) = fenced wall after text :=
  scan_skipBlank text

theorem fenced_plain {c : Char} (rest : List Char) (h : isPlain c = true) :
    fenced wall after (c :: rest) depth = fenceAt wall after c rest (fenced wall after rest) depth := by
  rw [fenced, scan_plain rest h]

theorem fenceAt_soft {c : Char} {more : Nat → Bool} (hwall : isHard wall = true)
    (hc : isHard c = false) : fenceAt wall after c rest more depth = more depth := by
  have hne : c ≠ wall := by
    rintro rfl
    cases hc.symm.trans hwall
  simp only [isHard, List.contains_eq_mem, List.mem_cons, List.not_mem_nil, or_false,
    decide_eq_false_iff_not, not_or] at hc
  simp only [fenceAt, hne, hc, and_false, or_false, if_false]

theorem fenced_soft_cons {c : Char} (rest : List Char) (hwall : isHard wall = true)
    (hc : isSoft c = true) :
    fenced wall after (c :: rest) depth = fenced wall after rest depth := by
  rw [isSoft, Bool.and_eq_true, Bool.not_eq_true'] at hc
  rw [fenced_plain _ hc.1, fenceAt_soft hwall hc.2]

theorem fenced_soft {chars : List Char} (rest : List Char) (hwall : isHard wall = true)
    (hsoft : ∀ c ∈ chars, isSoft c = true) :
    fenced wall after (chars ++ rest) depth = fenced wall after rest depth := by
  induction chars with
  | nil => rfl
  | cons c chars ih =>
    obtain ⟨hc, hsoft⟩ := List.forall_mem_cons.mp hsoft
    rw [List.cons_append, fenced_soft_cons _ hwall hc, ih hsoft]

theorem fenced_slash (hwall : isHard wall = true) (h : skipBlank ('/' :: rest) = '/' :: rest) :
    fenced wall after ('/' :: rest) depth = fenced wall after rest depth := by
  rw [fenced, scan_slash h, fenceAt_soft hwall rfl]

theorem fenced_hash (rest : List Char) :
    fenced wall after ('#' :: rest) = fenced wall after (rest.dropWhile (· != '\n')) := by
  rw [fenced, scan_hash]

/-- A character outside of the brackets that is passed there. -/
def Passable (wall c : Char) (depth : Nat) : Prop :=
  depth = 0 → wall ≠ c

theorem passable_inside (wall c : Char) (depth : Nat) : Passable wall c (depth + 1) :=
  fun h => absurd h (Nat.succ_ne_zero depth)

theorem fenced_open {c : Char} (rest : List Char) (hc : c = '(' ∨ c = '{')
    (h : Passable wall c depth) :
    fenced wall after (c :: rest) depth = fenced wall after rest (depth + 1) := by
  have hplain : isPlain c = true := by rcases hc with rfl | rfl <;> rfl
  rw [fenced_plain _ hplain, fenceAt, if_neg fun hwall => h hwall.1 hwall.2.symm, if_pos hc]

theorem fenced_close {c : Char} (rest : List Char) (hc : c = ')' ∨ c = '}') :
    fenced wall after (c :: rest) (depth + 1) = fenced wall after rest depth := by
  have hplain : isPlain c = true := by rcases hc with rfl | rfl <;> rfl
  have hopen : ¬(c = '(' ∨ c = '{') := by rcases hc with rfl | rfl <;> decide
  rw [fenced_plain _ hplain, fenceAt, if_neg fun hwall => Nat.succ_ne_zero _ hwall.1, if_neg hopen,
    if_pos hc, decide_eq_true (Nat.succ_pos depth), Bool.true_and, Nat.add_sub_cancel]

theorem fenced_semicolon (rest : List Char) (h : Passable wall ';' depth) :
    fenced wall after (';' :: rest) depth = fenced wall after rest depth := by
  rw [fenced_plain _ rfl, fenceAt, if_neg fun hwall => h hwall.1 hwall.2.symm,
    if_neg (by decide), if_neg (by decide)]

theorem fenced_wall (hwall : isPlain wall = true) (h : after ≤ rest.length) :
    fenced wall after (wall :: rest) 0 = true := by
  rw [fenced_plain _ hwall, fenceAt, if_pos ⟨rfl, rfl⟩, decide_eq_true h]

/-- The wall stands in the text, with enough characters behind it. -/
def HasWall (wall : Char) (after : Nat) (text : List Char) : Prop :=
  ∃ rest, wall :: rest <:+ text ∧ after ≤ rest.length

theorem HasWall.of_suffix (h : HasWall wall after rest) (hsuffix : rest <:+ text) :
    HasWall wall after text := by
  obtain ⟨more, hmore, hafter⟩ := h
  exact ⟨more, hmore.trans hsuffix, hafter⟩

theorem hasWall_of_fenceAt {c : Char}
    (hrest : ∀ depth, fenced wall after rest depth = true → HasWall wall after rest)
    (h : fenceAt wall after c rest (fenced wall after rest) depth = true) :
    HasWall wall after (c :: rest) := by
  have hsuffix := List.suffix_cons c rest
  unfold fenceAt at h
  split at h
  · rename_i hhere
    rw [hhere.2]
    exact ⟨rest, List.suffix_refl _, of_decide_eq_true h⟩
  split at h
  · exact (hrest _ h).of_suffix hsuffix
  split at h
  · exact (hrest _ (Bool.and_eq_true_iff.mp h).2).of_suffix hsuffix
  · exact (hrest _ h).of_suffix hsuffix

/-- A fence is a character of the text. -/
theorem hasWall_of_fenced (h : fenced wall after text depth = true) : HasWall wall after text := by
  induction text using scan.induct generalizing depth with
  | case1 =>
    rw [fenced, scan_nil] at h
    cases h
  | case2 rest ih =>
    rw [fenced, scan_lineComment] at h
    exact (ih h).of_suffix ((List.dropWhile_suffix _).trans (List.suffix_append ['/', '/'] rest))
  | case3 rest more hmore ih =>
    rw [fenced, scan_comment hmore] at h
    exact (ih h).of_suffix
      ((afterComment?_suffix hmore).trans (List.suffix_append ['/', '*'] rest))
  | case4 rest hmore ih =>
    rw [fenced, scan_slash (skipBlank_unclosed hmore)] at h
    exact hasWall_of_fenceAt (fun _ => ih) h
  | case5 rest ih =>
    rw [fenced_hash] at h
    exact (ih h).of_suffix ((List.dropWhile_suffix _).trans (List.suffix_cons '#' rest))
  | case6 c rest hline hblock hhash hspace ih =>
    rw [fenced, scan_space rest hspace] at h
    exact (ih h).of_suffix (List.suffix_cons c rest)
  | case7 c rest hline hblock hhash hspace ih =>
    by_cases hslash : c = '/'
    · subst hslash
      rw [fenced, scan_slash (skipBlank_slash_of_ne (hline · rfl) (hblock · rfl))] at h
      exact hasWall_of_fenceAt (fun _ => ih) h
    · have hplain : isPlain c = true := by
        simp only [isPlain, Bool.and_eq_true, Bool.not_eq_true', bne_iff_ne]
        exact ⟨⟨Bool.eq_false_iff.mpr hspace, hslash⟩, hhash⟩
      rw [fenced_plain rest hplain] at h
      exact hasWall_of_fenceAt (fun _ => ih) h

/-- A fence with the tail of a text behind it stands before the tail. -/
theorem wall_mem {tail : List Char} (h : fenced wall tail.length (text ++ tail) depth = true) :
    wall ∈ text := by
  obtain ⟨more, ⟨before, hbefore⟩, hlength⟩ := hasWall_of_fenced h
  obtain ⟨front, rfl⟩ := exists_append_of_suffix
    ((List.suffix_cons wall more).trans ⟨before, hbefore⟩) hlength
  have htext : before ++ wall :: front = text :=
    (List.append_left_inj tail).mp (by rw [← hbefore, List.append_assoc, List.cons_append])
  rw [← htext]
  exact List.mem_append_right _ List.mem_cons_self

/-- The blanks in front of a fence end before the tail behind it. -/
theorem skipBlank_append_of_fenced {tail : List Char}
    (h : fenced wall tail.length (text ++ tail) depth = true) :
    skipBlank (text ++ tail) = skipBlank text ++ tail := by
  rw [← fenced_skipBlank] at h
  obtain ⟨more, hsuffix, hlength⟩ := hasWall_of_fenced h
  have hle := hsuffix.length_le
  rw [List.length_cons] at hle
  exact skipBlank_append (by omega)

end Fence

end Text

/-! ### Readers that keep to a fence -/

namespace Reader

open Text

variable {α β : Type}

/-! #### Where compound readers get stuck -/

theorem bind_stuck_inv {p : Reader α} {f : α → Reader β} {text place : List Char}
    (h : (p >>= f) text = .stuck place) :
    p text = .stuck place ∨ ∃ a next, p text = .read a next ∧ f a next = .stuck place := by
  cases hfirst : p text with
  | stuck place' =>
    rw [bind_stuck f hfirst] at h
    cases h
    exact Or.inl rfl
  | read a next =>
    rw [bind_read f hfirst] at h
    exact Or.inr ⟨a, next, rfl, h⟩

theorem orElse_stuck_inv {p q : Reader α} {text place : List Char}
    (h : (p <|> q) text = .stuck place) : p text = .stuck place ∨ q text = .stuck place := by
  rw [orElse_apply, Reader.orElse] at h
  split at h
  · cases h
  · rename_i first hfirst
    split at h
    · cases h
    · rename_i second hsecond
      cases h
      unfold furthest
      split
      · exact Or.inr hsecond
      · exact Or.inl hfirst

/-- A branch goes on with what was read, or otherwise. -/
theorem branch_ways (p : Reader α) (f : α → Reader β) (o : Reader β) (text : List Char) :
    p.branch f o text = (p >>= f) text ∨ p.branch f o text = o text := by
  rcases read_or_refuses p text with ⟨a, rest, hread⟩ | hrefuses
  · exact Or.inl ((branch_read f o hread).trans (bind_read f hread).symm)
  · exact Or.inr (branch_refuses f o hrefuses)

theorem guarded_stuck_inv {p : Reader α} {test : α → Bool} {text place : List Char}
    (h : p.guarded test text = .stuck place) : place = text ∨ p text = .stuck place := by
  rw [Reader.guarded] at h
  split at h
  · split at h
    · cases h
    · cases h
      exact Or.inl rfl
  · rename_i hplace
    cases h
    exact Or.inr hplace

theorem ahead_cases (p : Reader α) (text : List Char) :
    (∃ a, p.ahead text = .read a text) ∨ ∃ place, p.ahead text = .stuck place ∧
      p text = .stuck place := by
  rcases read_or_refuses p text with ⟨a, rest, hread⟩ | ⟨place, hplace⟩
  · exact Or.inl ⟨a, ahead_read hread⟩
  · exact Or.inr ⟨place, by rw [Reader.ahead, hplace], hplace⟩

/-! #### Ignoring the tail of a text -/

/-- The reader does the same on the text with a tail and without it: it reads the same, or gets
stuck both times. -/
def Ignores (p : Reader α) (tail text : List Char) : Prop :=
  (∃ a rest, p text = .read a rest ∧ p (text ++ tail) = .read a (rest ++ tail)) ∨
    p.Refuses text ∧ p.Refuses (text ++ tail)

section Ignores

variable {p q : Reader α} {tail text : List Char}

theorem Ignores.bind {f : α → Reader β} (hp : p.Ignores tail text)
    (hf : ∀ a rest, p text = .read a rest → p (text ++ tail) = .read a (rest ++ tail) →
      (f a).Ignores tail rest) : (p >>= f).Ignores tail text := by
  rcases hp with ⟨a, next, hfirst, hfirst'⟩ | ⟨hrefuses, hrefuses'⟩
  · rcases hf a next hfirst hfirst' with ⟨b, rest, hread, hread'⟩ | ⟨hrefuses, hrefuses'⟩
    · exact Or.inl ⟨b, rest, (bind_read f hfirst).trans hread, (bind_read f hfirst').trans hread'⟩
    · exact Or.inr ⟨hrefuses.bind_of_read hfirst, hrefuses'.bind_of_read hfirst'⟩
  · exact Or.inr ⟨hrefuses.bind f, hrefuses'.bind f⟩

theorem Ignores.orElse (hp : p.Ignores tail text) (hq : q.Ignores tail text) :
    (p <|> q).Ignores tail text := by
  rcases hp with ⟨a, rest, hread, hread'⟩ | ⟨hfirst, hfirst'⟩
  · exact Or.inl ⟨a, rest, orElse_read q hread, orElse_read q hread'⟩
  rcases hq with ⟨a, rest, hread, hread'⟩ | ⟨hsecond, hsecond'⟩
  · exact Or.inl ⟨a, rest, orElse_refuses hfirst hread, orElse_refuses hfirst' hread'⟩
  · exact Or.inr ⟨hfirst.orElse hsecond, hfirst'.orElse hsecond'⟩

theorem Ignores.branch {f : α → Reader β} {o : Reader β} (hp : p.Ignores tail text)
    (hf : (p >>= f).Ignores tail text) (ho : o.Ignores tail text) :
    (p.branch f o).Ignores tail text := by
  rcases hp with ⟨a, rest, hread, hread'⟩ | ⟨hrefuses, hrefuses'⟩
  · rw [Ignores, Refuses, Refuses, branch_read f o hread, branch_read f o hread',
      ← bind_read f hread, ← bind_read f hread']
    exact hf
  · rw [Ignores, Refuses, Refuses, branch_refuses f o hrefuses, branch_refuses f o hrefuses']
    exact ho

theorem Ignores.guarded (hp : p.Ignores tail text) (test : α → Bool) :
    (p.guarded test).Ignores tail text := by
  rcases hp with ⟨a, rest, hread, hread'⟩ | ⟨hrefuses, hrefuses'⟩
  · cases htest : test a with
    | true => exact Or.inl ⟨a, rest, guarded_read hread htest, guarded_read hread' htest⟩
    | false => exact Or.inr ⟨guarded_refuses hread htest, guarded_refuses hread' htest⟩
  · exact Or.inr ⟨hrefuses.guarded test, hrefuses'.guarded test⟩

theorem Ignores.ahead (hp : p.Ignores tail text) : p.ahead.Ignores tail text := by
  rcases hp with ⟨a, rest, hread, hread'⟩ | ⟨hrefuses, hrefuses'⟩
  · exact Or.inl ⟨a, text, ahead_read hread, ahead_read hread'⟩
  · exact Or.inr ⟨hrefuses.ahead, hrefuses'.ahead⟩

end Ignores

/-! #### Heeding a fence -/

/-- On texts of fewer than `n` characters the reader takes a part off the front or gets stuck
somewhere in the text. From a token on it goes to a token, from `depth` brackets inside a fence to
`depth'` of them, and it ignores what is behind the fence. -/
structure Heeds (n : Nat) (wall : Char) (depth depth' : Nat) (p : Reader α) : Prop where
  rest : ∀ {text a rest}, text.length < n → p text = .read a rest → rest <:+ text
  place : ∀ {text place}, text.length < n → p text = .stuck place → place <:+ text
  token : ∀ {text a rest}, text.length < n → skipBlank text = text → p text = .read a rest →
    skipBlank rest = rest
  fence : ∀ {text a rest}, text.length < n → skipBlank text = text → p text = .read a rest →
    ∀ after, fenced wall after text depth = fenced wall after rest depth'
  ignores : ∀ {text tail}, (text ++ tail).length < n → skipBlank (text ++ tail) = text ++ tail →
    fenced wall tail.length (text ++ tail) depth = true → p.Ignores tail text

section Rules

variable {n m : Nat} {wall : Char} {depth depth' depth'' : Nat} {p q : Reader α}

theorem Heeds.mono (h : p.Heeds n wall depth depth') (hm : m ≤ n) :
    p.Heeds m wall depth depth' where
  rest hlength := h.rest (by omega)
  place hlength := h.place (by omega)
  token hlength := h.token (by omega)
  fence hlength := h.fence (by omega)
  ignores hlength := h.ignores (by omega)

theorem heeds_pure (a : α) : (pure a : Reader α).Heeds n wall depth depth where
  rest _ hread := by
    cases hread
    exact List.suffix_refl _
  place _ hstuck := by cases hstuck
  token _ htoken hread := by
    cases hread
    exact htoken
  fence _ _ hread := by
    cases hread
    exact fun _ => rfl
  ignores _ _ _ := Or.inl ⟨a, _, rfl, rfl⟩

theorem heeds_refuse : (refuse : Reader α).Heeds n wall depth depth' where
  rest _ hread := by cases hread
  place _ hstuck := by
    cases hstuck
    exact List.suffix_refl _
  token _ _ hread := by cases hread
  fence _ _ hread := by cases hread
  ignores _ _ _ := Or.inr ⟨⟨_, rfl⟩, ⟨_, rfl⟩⟩

/-- A sequence, where the first reader takes a number of characters that depends on its value. -/
theorem Heeds.bindTaking {f : α → Reader β} (cost : α → Nat) (hp : p.Heeds n wall depth depth')
    (hcost : ∀ {text a rest}, text.length < n → p text = .read a rest →
      rest.length + cost a ≤ text.length)
    (hf : ∀ a, (f a).Heeds (n - cost a) wall depth' depth'') :
    (p >>= f).Heeds n wall depth depth'' where
  rest hlength hread := by
    obtain ⟨a, next, hfirst, hsecond⟩ := bind_inv hread
    have hle := hcost hlength hfirst
    exact ((hf a).rest (by omega) hsecond).trans (hp.rest hlength hfirst)
  place {text place} hlength hstuck := by
    rcases bind_stuck_inv hstuck with hstuck | ⟨a, next, hfirst, hstuck⟩
    · exact hp.place hlength hstuck
    · have hle := hcost hlength hfirst
      exact ((hf a).place (by omega) hstuck).trans (hp.rest hlength hfirst)
  token hlength htoken hread := by
    obtain ⟨a, next, hfirst, hsecond⟩ := bind_inv hread
    have hle := hcost hlength hfirst
    exact (hf a).token (by omega) (hp.token hlength htoken hfirst) hsecond
  fence hlength htoken hread after := by
    obtain ⟨a, next, hfirst, hsecond⟩ := bind_inv hread
    have hle := hcost hlength hfirst
    rw [hp.fence hlength htoken hfirst,
      (hf a).fence (by omega) (hp.token hlength htoken hfirst) hsecond]
  ignores hlength htoken hfenced := by
    refine (hp.ignores hlength htoken hfenced).bind fun a next _ hfirst => ?_
    have hle := hcost hlength hfirst
    rw [hp.fence hlength htoken hfirst] at hfenced
    exact (hf a).ignores (by omega) (hp.token hlength htoken hfirst) hfenced

theorem Heeds.orElse (hp : p.Heeds n wall depth depth') (hq : q.Heeds n wall depth depth') :
    (p <|> q).Heeds n wall depth depth' where
  rest hlength hread := by
    rcases orElse_inv hread with hread | ⟨-, hread⟩
    · exact hp.rest hlength hread
    · exact hq.rest hlength hread
  place {text place} hlength hstuck := by
    rcases orElse_stuck_inv hstuck with hstuck | hstuck
    · exact hp.place hlength hstuck
    · exact hq.place hlength hstuck
  token hlength htoken hread := by
    rcases orElse_inv hread with hread | ⟨-, hread⟩
    · exact hp.token hlength htoken hread
    · exact hq.token hlength htoken hread
  fence hlength htoken hread := by
    rcases orElse_inv hread with hread | ⟨-, hread⟩
    · exact hp.fence hlength htoken hread
    · exact hq.fence hlength htoken hread
  ignores hlength htoken hfenced :=
    (hp.ignores hlength htoken hfenced).orElse (hq.ignores hlength htoken hfenced)

/-- A branch goes one of two ways, and both heed the fence. -/
theorem Heeds.branchTaking {f : α → Reader β} {o : Reader β} (cost : Nat)
    (hp : p.Heeds n wall depth depth')
    (hcost : ∀ {text a rest}, text.length < n → p text = .read a rest →
      rest.length + cost ≤ text.length)
    (hf : ∀ a, (f a).Heeds (n - cost) wall depth' depth'') (ho : o.Heeds n wall depth depth'') :
    (p.branch f o).Heeds n wall depth depth'' := by
  have hseq : (p >>= f).Heeds n wall depth depth'' := hp.bindTaking (fun _ => cost) hcost hf
  refine ⟨fun {text _ _} => ?_, fun {text _} => ?_, fun {text _ _} => ?_, fun {text _ _} => ?_,
    fun hlength htoken hfenced => (hp.ignores hlength htoken hfenced).branch
      (hseq.ignores hlength htoken hfenced) (ho.ignores hlength htoken hfenced)⟩
  · rcases branch_ways p f o text with heq | heq
    · rw [heq]
      exact hseq.rest
    · rw [heq]
      exact ho.rest
  · rcases branch_ways p f o text with heq | heq
    · rw [heq]
      exact hseq.place
    · rw [heq]
      exact ho.place
  · rcases branch_ways p f o text with heq | heq
    · rw [heq]
      exact hseq.token
    · rw [heq]
      exact ho.token
  · rcases branch_ways p f o text with heq | heq
    · rw [heq]
      exact hseq.fence
    · rw [heq]
      exact ho.fence

theorem Heeds.bind {f : α → Reader β} (hp : p.Heeds n wall depth depth')
    (hf : ∀ a, (f a).Heeds n wall depth' depth'') : (p >>= f).Heeds n wall depth depth'' :=
  hp.bindTaking (fun _ => 0) (fun hlength hread => (hp.rest hlength hread).length_le) hf

/-- After a reader that takes something there is less text left. -/
theorem Heeds.bindAfter {f : α → Reader β} (hp : p.Heeds (n + 1) wall depth depth')
    (htakes : p.Takes 1) (hf : ∀ a, (f a).Heeds n wall depth' depth'') :
    (p >>= f).Heeds (n + 1) wall depth depth'' :=
  hp.bindTaking (fun _ => 1) (fun _ => htakes _ _ _) hf

theorem Heeds.branch {f : α → Reader β} {o : Reader β} (hp : p.Heeds n wall depth depth')
    (hf : ∀ a, (f a).Heeds n wall depth' depth'') (ho : o.Heeds n wall depth depth'') :
    (p.branch f o).Heeds n wall depth depth'' :=
  hp.branchTaking 0 (fun hlength hread => (hp.rest hlength hread).length_le) hf ho

theorem Heeds.branchAfter {f : α → Reader β} {o : Reader β} (hp : p.Heeds (n + 1) wall depth depth')
    (htakes : p.Takes 1) (hf : ∀ a, (f a).Heeds n wall depth' depth'')
    (ho : o.Heeds (n + 1) wall depth depth'') : (p.branch f o).Heeds (n + 1) wall depth depth'' :=
  hp.branchTaking 1 (fun _ => htakes _ _ _) hf ho

theorem Heeds.optional (hp : p.Heeds n wall depth depth) : p.optional.Heeds n wall depth depth :=
  hp.branch (fun _ => heeds_pure _) (heeds_pure _)

theorem Heeds.guarded (hp : p.Heeds n wall depth depth') (test : α → Bool) :
    (p.guarded test).Heeds n wall depth depth' where
  rest hlength hread := hp.rest hlength (guarded_inv hread).1
  place {text place} hlength hstuck := by
    rcases guarded_stuck_inv hstuck with rfl | hstuck
    · exact List.suffix_refl _
    · exact hp.place hlength hstuck
  token hlength htoken hread := hp.token hlength htoken (guarded_inv hread).1
  fence hlength htoken hread := hp.fence hlength htoken (guarded_inv hread).1
  ignores hlength htoken hfenced := (hp.ignores hlength htoken hfenced).guarded test

theorem Heeds.ahead (hp : p.Heeds n wall depth depth') : p.ahead.Heeds n wall depth depth := by
  have hrest : ∀ {text rest : List Char} {a : α}, p.ahead text = .read a rest → rest = text := by
    intro text rest a hread
    rcases ahead_cases p text with ⟨b, hread'⟩ | ⟨place, hstuck, -⟩
    · cases hread.symm.trans hread'
      rfl
    · cases hread.symm.trans hstuck
  refine ⟨fun _ hread => ?_, fun {text place} hlength hstuck => ?_, fun _ htoken hread => ?_,
    fun _ _ hread _ => ?_, fun hlength htoken hfenced => (hp.ignores hlength htoken hfenced).ahead⟩
  · exact hrest hread ▸ List.suffix_refl _
  · rcases ahead_cases p text with ⟨b, hread⟩ | ⟨place', hstuck', hplace⟩
    · cases hread.symm.trans hstuck
    · cases hstuck'.symm.trans hstuck
      exact hp.place hlength hplace
  · rwa [hrest hread]
  · rw [hrest hread]

end Rules

/-! ### Repetition -/

section Repetition

variable {n : Nat} {wall : Char} {depth depth' : Nat} {p : Reader α} {s : Reader β}

theorem heeds_zero (p : Reader α) : p.Heeds 0 wall depth depth' where
  rest hlength := absurd hlength (Nat.not_lt_zero _)
  place hlength := absurd hlength (Nat.not_lt_zero _)
  token hlength := absurd hlength (Nat.not_lt_zero _)
  fence hlength := absurd hlength (Nat.not_lt_zero _)
  ignores hlength := absurd hlength (Nat.not_lt_zero _)

theorem Heeds.many (hp : p.Heeds n wall depth depth) (htakes : p.Takes 1) :
    (many p).Heeds n wall depth depth := by
  induction n with
  | zero => exact heeds_zero _
  | succ n ih =>
    rw [many_eq htakes]
    refine hp.branchAfter htakes (fun a => ?_) (heeds_pure _)
    exact (ih (hp.mono (Nat.le_succ n))).bind fun _ => heeds_pure _

theorem Heeds.many1 (hp : p.Heeds n wall depth depth) (htakes : p.Takes 1) :
    (many1 p).Heeds n wall depth depth :=
  hp.bind fun _ => (hp.many htakes).bind fun _ => heeds_pure _

theorem Heeds.listItem (hs : s.Heeds n wall depth depth) (hp : p.Heeds n wall depth depth)
    (htakes : p.Takes 1) (hstakes : s.Takes 1) :
    (Reader.many (do let _ ← s; p)).Heeds n wall depth depth :=
  (hs.bind fun _ => hp).many (hstakes.bind (fun _ => htakes) (Nat.le_add_right 1 1))

theorem Heeds.separated1 (hs : s.Heeds n wall depth depth) (hp : p.Heeds n wall depth depth)
    (htakes : p.Takes 1) (hstakes : s.Takes 1) : (separated1 s p).Heeds n wall depth depth :=
  hp.bind fun _ => (hs.listItem hp htakes hstakes).bind fun _ => heeds_pure _

theorem Heeds.separated (hs : s.Heeds n wall depth depth) (hp : p.Heeds n wall depth depth)
    (htakes : p.Takes 1) (hstakes : s.Takes 1) : (separated s p).Heeds n wall depth depth :=
  hp.branch (fun _ => (hs.listItem hp htakes hstakes).bind fun _ => heeds_pure _) (heeds_pure _)

theorem Heeds.manyUntil {close : Reader β} (hp : p.Heeds n wall depth depth)
    (hclose : close.Heeds n wall depth depth') (htakes : p.Takes 1) (hctakes : close.Takes 1) :
    (manyUntil p close).Heeds n wall depth depth' := by
  induction n with
  | zero => exact heeds_zero _
  | succ n ih =>
    rw [manyUntil_eq htakes hctakes]
    refine hclose.branch (fun _ => heeds_pure _) (hp.bindAfter htakes fun first => ?_)
    exact (ih (hp.mono (Nat.le_succ n)) (hclose.mono (Nat.le_succ n))).bind fun _ => heeds_pure _

theorem Heeds.extend {step : α → Reader (Option α)}
    (hstep : ∀ a, (step a).Heeds n wall depth depth)
    (hagree : ∀ m a, StepsAgree m (step a) (step a)) (a : α) :
    (extend step a).Heeds n wall depth depth := by
  induction n generalizing a with
  | zero => exact heeds_zero _
  | succ n ih =>
    rw [extend_eq hagree a]
    refine (hstep a).bindTaking (fun found => if found.isSome then 1 else 0)
      (fun {text found rest} hlength hread => ?_) fun found => ?_
    · obtain ⟨-, hsome, hnone⟩ := hagree (n + 1) a text hlength
      cases found with
      | none => exact hnone rest hread
      | some larger => exact hsome larger rest hread
    · cases found with
      | none => exact heeds_pure a
      | some larger => exact ih (fun b => (hstep b).mono (Nat.le_succ n)) larger

end Repetition

end Reader

end GlslShrink
