import GlslShrink.Reading.Reader

/-!
Recursive readers solve their own equations. The readers of the grammar call each other on whatever
text an inner reader has left, so a recursive reader is well defined only because no reader leaves
more text than it was given. `Agree` says both things at once: two readers do the same on all short
texts, and what they read takes a certain number of characters. A family of readers that turns
agreement on texts of fewer than `n` characters into agreement on texts of `n` characters has a
fixed point (`Contracts.fix_eq`), and two such families have fixed points that agree (`fix_agree`).

The equations of repetition (`many_eq`, `manyUntil_eq`, `extend_eq`) follow.
-/

set_option autoImplicit false

namespace GlslShrink.Reader

variable {α β ι : Type}

/-! ### What a compound reader does -/

/-- The reader gets stuck on the text. -/
def Refuses (p : Reader α) (text : List Char) : Prop :=
  ∃ place, p text = .stuck place

theorem pure_apply (a : α) (text : List Char) : (pure a : Reader α) text = .read a text :=
  rfl

theorem bind_read {p : Reader α} {text rest : List Char} {a : α} (f : α → Reader β)
    (h : p text = .read a rest) : (p >>= f) text = f a rest := by
  simp only [bind, h]

theorem bind_stuck {p : Reader α} {text place : List Char} (f : α → Reader β)
    (h : p text = .stuck place) : (p >>= f) text = .stuck place := by
  simp only [bind, h]

theorem branch_read {p : Reader α} {text rest : List Char} {a : α} (next : α → Reader β)
    (otherwise : Reader β) (h : p text = .read a rest) :
    p.branch next otherwise text = next a rest := by
  simp only [branch, h]

theorem branch_refuses {p : Reader α} {text : List Char} (next : α → Reader β)
    (otherwise : Reader β) (h : p.Refuses text) :
    p.branch next otherwise text = otherwise text := by
  obtain ⟨place, hplace⟩ := h
  simp only [branch, hplace]

theorem orElse_apply (p q : Reader α) (text : List Char) :
    (p <|> q) text = orElse p q text :=
  rfl

theorem orElse_read {p : Reader α} {text rest : List Char} {a : α} (q : Reader α)
    (h : p text = .read a rest) : (p <|> q) text = .read a rest := by
  simp only [orElse_apply, orElse, h]

theorem orElse_refuses {p q : Reader α} {text rest : List Char} {a : α} (h : p.Refuses text)
    (hq : q text = .read a rest) : (p <|> q) text = .read a rest := by
  obtain ⟨place, hplace⟩ := h
  simp only [orElse_apply, orElse, hplace, hq]

theorem Refuses.bind {p : Reader α} {text : List Char} (h : p.Refuses text) (f : α → Reader β) :
    (p >>= f).Refuses text := by
  obtain ⟨place, hplace⟩ := h
  exact ⟨place, bind_stuck f hplace⟩

theorem Refuses.bind_of_read {p : Reader α} {text rest : List Char} {a : α} {f : α → Reader β}
    (hp : p text = .read a rest) (h : (f a).Refuses rest) : (p >>= f).Refuses text := by
  obtain ⟨place, hplace⟩ := h
  exact ⟨place, by rw [bind_read f hp, hplace]⟩

theorem Refuses.orElse {p q : Reader α} {text : List Char} (hp : p.Refuses text)
    (hq : q.Refuses text) : (p <|> q).Refuses text := by
  obtain ⟨place, hplace⟩ := hp
  obtain ⟨place', hplace'⟩ := hq
  exact ⟨furthest place place', by simp only [orElse_apply, Reader.orElse, hplace, hplace']⟩

theorem Refuses.guarded {p : Reader α} {text : List Char} (h : p.Refuses text)
    (test : α → Bool) : (p.guarded test).Refuses text := by
  obtain ⟨place, hplace⟩ := h
  exact ⟨place, by simp only [Reader.guarded, hplace]⟩

theorem Refuses.ahead {p : Reader α} {text : List Char} (h : p.Refuses text) :
    p.ahead.Refuses text := by
  obtain ⟨place, hplace⟩ := h
  exact ⟨place, by simp only [Reader.ahead, hplace]⟩

theorem guarded_read {p : Reader α} {text rest : List Char} {a : α} {test : α → Bool}
    (h : p text = .read a rest) (ha : test a = true) : p.guarded test text = .read a rest := by
  simp only [guarded, h, ha, if_true]

theorem guarded_refuses {p : Reader α} {text rest : List Char} {a : α} {test : α → Bool}
    (h : p text = .read a rest) (ha : test a = false) : (p.guarded test).Refuses text := by
  refine ⟨text, ?_⟩
  simp only [guarded, h, ha, Bool.false_eq_true, if_false]

theorem ahead_read {p : Reader α} {text rest : List Char} {a : α} (h : p text = .read a rest) :
    p.ahead text = .read a text := by
  simp only [ahead, h]

theorem optional_read {p : Reader α} {text rest : List Char} {a : α} (h : p text = .read a rest) :
    p.optional text = .read (some a) rest :=
  branch_read _ _ h

theorem optional_refuses {p : Reader α} {text : List Char} (h : p.Refuses text) :
    p.optional text = .read none text :=
  branch_refuses _ _ h

/-- A reader that reads has not got stuck. -/
theorem not_refuses_of_read {p : Reader α} {text rest : List Char} {a : α}
    (h : p text = .read a rest) : ¬ p.Refuses text := by
  rintro ⟨place, hplace⟩
  rw [h] at hplace
  cases hplace

/-- A reader reads or gets stuck. -/
theorem read_or_refuses (p : Reader α) (text : List Char) :
    (∃ a rest, p text = .read a rest) ∨ p.Refuses text := by
  cases h : p text with
  | read a rest => exact Or.inl ⟨a, rest, rfl⟩
  | stuck place => exact Or.inr ⟨place, h⟩

/-- Where a sequence reads, both of its parts do. -/
theorem bind_inv {p : Reader α} {f : α → Reader β} {text rest : List Char} {b : β}
    (h : (p >>= f) text = .read b rest) :
    ∃ a next, p text = .read a next ∧ f a next = .read b rest := by
  rcases read_or_refuses p text with ⟨a, next, hread⟩ | hrefuses
  · rw [bind_read f hread] at h
    exact ⟨a, next, hread, h⟩
  · exact absurd (hrefuses.bind f) (not_refuses_of_read h)

/-- Where a choice reads, the first of its alternatives that reads does. -/
theorem orElse_inv {p q : Reader α} {text rest : List Char} {a : α}
    (h : (p <|> q) text = .read a rest) :
    p text = .read a rest ∨ (p.Refuses text ∧ q text = .read a rest) := by
  rcases read_or_refuses p text with ⟨b, next, hread⟩ | hrefuses
  · rw [orElse_read q hread] at h
    exact Or.inl (hread.trans h)
  · rcases read_or_refuses q text with ⟨b, next, hread⟩ | hrefuses'
    · rw [orElse_refuses hrefuses hread] at h
      exact Or.inr ⟨hrefuses, hread.trans h⟩
    · exact absurd (hrefuses.orElse hrefuses') (not_refuses_of_read h)

/-- Where a branch reads, it has gone one of its two ways. -/
theorem branch_inv {p : Reader α} {next : α → Reader β} {otherwise : Reader β}
    {text rest : List Char} {b : β} (h : p.branch next otherwise text = .read b rest) :
    (∃ a middle, p text = .read a middle ∧ next a middle = .read b rest) ∨
      (p.Refuses text ∧ otherwise text = .read b rest) := by
  rcases read_or_refuses p text with ⟨a, middle, hread⟩ | hrefuses
  · rw [branch_read _ _ hread] at h
    exact Or.inl ⟨a, middle, hread, h⟩
  · rw [branch_refuses _ _ hrefuses] at h
    exact Or.inr ⟨hrefuses, h⟩

theorem optional_none_inv {p : Reader α} {text rest : List Char}
    (h : p.optional text = .read none rest) : rest = text := by
  rcases branch_inv h with ⟨a, middle, -, hread⟩ | ⟨-, hread⟩
  · cases hread
  · cases hread
    rfl

/-- What a guarded reader reads passes the test. -/
theorem guarded_inv {p : Reader α} {test : α → Bool} {text rest : List Char} {a : α}
    (h : p.guarded test text = .read a rest) : p text = .read a rest ∧ test a = true := by
  rcases read_or_refuses p text with ⟨b, next, hread⟩ | hrefuses
  · by_cases htest : test b = true
    · rw [guarded_read hread htest] at h
      cases h
      exact ⟨hread, htest⟩
    · exact absurd (guarded_refuses hread (by simpa using htest)) (not_refuses_of_read h)
  · exact absurd (hrefuses.guarded test) (not_refuses_of_read h)

/-! ### Agreement -/

/-- On texts of fewer than `n` characters both readers do the same, and what they read takes at
least `cost` characters. -/
def Agree (n cost : Nat) (p q : Reader α) : Prop :=
  ∀ text, text.length < n →
    p text = q text ∧ ∀ a rest, p text = .read a rest → rest.length + cost ≤ text.length

/-- Whatever the reader reads takes at least `cost` characters. -/
def Takes (cost : Nat) (p : Reader α) : Prop :=
  ∀ text a rest, p text = .read a rest → rest.length + cost ≤ text.length

theorem Takes.agree {cost : Nat} {p : Reader α} (h : p.Takes cost) (n : Nat) :
    Agree n cost p p :=
  fun text _ => ⟨rfl, h text⟩

theorem takes_of_agree {cost : Nat} {p : Reader α} (h : ∀ n, Agree n cost p p) :
    p.Takes cost :=
  fun text => (h (text.length + 1) text (Nat.lt_succ_self _)).2

theorem Agree.mono {n m cost less : Nat} {p q : Reader α} (h : Agree n cost p q) (hm : m ≤ n)
    (hless : less ≤ cost) : Agree m less p q := by
  intro text htext
  obtain ⟨heq, hread⟩ := h text (by omega)
  refine ⟨heq, fun a rest hrest => ?_⟩
  have := hread a rest hrest
  omega

theorem Takes.mono {cost less : Nat} {p : Reader α} (h : p.Takes cost) (hless : less ≤ cost) :
    p.Takes less :=
  fun text a rest hread => by have := h text a rest hread; omega

theorem agree_pure (n : Nat) (a : α) : Agree n 0 (pure a : Reader α) (pure a) := by
  intro text _
  refine ⟨rfl, fun b rest h => ?_⟩
  cases h
  simp

theorem agree_refuse (n cost : Nat) : Agree n cost (refuse : Reader α) refuse := by
  intro text _
  exact ⟨rfl, fun a rest h => by cases h⟩

/-- In a sequence the second reader only sees texts that the first one has left. -/
theorem Agree.bind {n c d e : Nat} {p q : Reader α} {f g : α → Reader β} (hpq : Agree n c p q)
    (hfg : ∀ a, Agree (n - c) d (f a) (g a)) (he : e ≤ c + d) :
    Agree n e (p >>= f) (q >>= g) := by
  intro text htext
  obtain ⟨heq, hread⟩ := hpq text htext
  cases hp : p text with
  | stuck place =>
    rw [bind_stuck f hp, bind_stuck g (heq ▸ hp)]
    exact ⟨rfl, fun a rest h => by cases h⟩
  | read a rest =>
    have hrest := hread a rest hp
    rw [bind_read f hp, bind_read g (heq ▸ hp)]
    obtain ⟨heq', hread'⟩ := hfg a rest (by omega)
    refine ⟨heq', fun b rest' h => ?_⟩
    have := hread' b rest' h
    omega

theorem Agree.branch {n c d e : Nat} {p q : Reader α} {f g : α → Reader β} {o o' : Reader β}
    (hpq : Agree n c p q) (hfg : ∀ a, Agree (n - c) d (f a) (g a)) (ho : Agree n e o o')
    (he : e ≤ c + d) : Agree n e (p.branch f o) (q.branch g o') := by
  intro text htext
  obtain ⟨heq, hread⟩ := hpq text htext
  cases hp : p text with
  | stuck place =>
    rw [branch_refuses f o ⟨place, hp⟩, branch_refuses g o' ⟨place, heq ▸ hp⟩]
    exact ho text htext
  | read a rest =>
    have hrest := hread a rest hp
    rw [branch_read f o hp, branch_read g o' (heq ▸ hp)]
    obtain ⟨heq', hread'⟩ := hfg a rest (by omega)
    refine ⟨heq', fun b rest' h => ?_⟩
    have := hread' b rest' h
    omega

theorem Agree.optional {n c : Nat} {p q : Reader α} (h : Agree n c p q) :
    Agree n 0 p.optional q.optional :=
  h.branch (fun _ => agree_pure _ _) (agree_pure _ _) (by omega)

theorem Agree.orElse {n c : Nat} {p p' q q' : Reader α} (hp : Agree n c p p')
    (hq : Agree n c q q') : Agree n c (p <|> q) (p' <|> q') := by
  intro text htext
  obtain ⟨heq, hread⟩ := hp text htext
  obtain ⟨heq', hread'⟩ := hq text htext
  simp only [orElse_apply, Reader.orElse, ← heq, ← heq', true_and]
  intro a rest h
  split at h
  · rename_i b rest' hread''
    cases h
    exact hread a rest hread''
  · split at h
    · rename_i b rest' hread''
      cases h
      exact hread' a rest hread''
    · cases h

theorem Agree.guarded {n c : Nat} {p q : Reader α} (h : Agree n c p q) (test : α → Bool) :
    Agree n c (p.guarded test) (q.guarded test) := by
  intro text htext
  obtain ⟨heq, hread⟩ := h text htext
  simp only [Reader.guarded, ← heq, true_and]
  intro a rest hguarded
  split at hguarded
  · rename_i b rest' hread'
    split at hguarded
    · cases hguarded
      exact hread a rest hread'
    · cases hguarded
  · cases hguarded

theorem Agree.ahead {n c : Nat} {p q : Reader α} (h : Agree n c p q) :
    Agree n 0 p.ahead q.ahead := by
  intro text htext
  obtain ⟨heq, -⟩ := h text htext
  simp only [Reader.ahead, ← heq, true_and]
  intro a rest hahead
  split at hahead
  · cases hahead
    simp
  · cases hahead

/-! ### Fixed points -/

section Recursion

variable {cost : Nat} {family family' : (ι → Reader α) → ι → Reader α}

/-- Two families that carry agreement from shorter texts to longer ones agree at every depth that
exceeds the length of the text. -/
theorem unfolding_agree {n : Nat}
    (h : ∀ m, m < n → ∀ p q : ι → Reader α, (∀ j, Agree m cost (p j) (q j)) →
      ∀ i, Agree (m + 1) cost (family p i) (family' q i))
    (m : Nat) (hm : m ≤ n) (d d' : Nat) (hd : m ≤ d) (hd' : m ≤ d') (i : ι) :
    Agree m cost (unfolding family d i) (unfolding family' d' i) := by
  induction m generalizing d d' i with
  | zero => exact fun text htext => absurd htext (Nat.not_lt_zero _)
  | succ m ih =>
    obtain ⟨d, rfl⟩ : ∃ e, d = e + 1 := ⟨d - 1, by omega⟩
    obtain ⟨d', rfl⟩ : ∃ e, d' = e + 1 := ⟨d' - 1, by omega⟩
    exact h m (by omega) _ _ (fun j => ih (by omega) d d' (by omega) (by omega) j) i

theorem fix_agree {n : Nat}
    (h : ∀ m, m < n → ∀ p q : ι → Reader α, (∀ j, Agree m cost (p j) (q j)) →
      ∀ i, Agree (m + 1) cost (family p i) (family' q i)) (i : ι) :
    Agree n cost (fix family i) (fix family' i) := by
  intro text htext
  exact unfolding_agree h (text.length + 1) (by omega) _ _ (Nat.le_refl _) (Nat.le_refl _) i text
    (by omega)

/-- A family whose members carry agreement from shorter texts to longer ones. -/
def Contracts (cost : Nat) (family : (ι → Reader α) → ι → Reader α) : Prop :=
  ∀ n, ∀ p q : ι → Reader α, (∀ j, Agree n cost (p j) (q j)) →
    ∀ i, Agree (n + 1) cost (family p i) (family q i)

theorem Contracts.takes (h : Contracts cost family) (i : ι) : (fix family i).Takes cost :=
  takes_of_agree fun _ => fix_agree (fun m _ => h m) i

/-- A contracting family solves its own equation. -/
theorem Contracts.fix_eq (h : Contracts cost family) (i : ι) :
    fix family i = family (fix family) i := by
  funext text
  have hinner : ∀ j, Agree text.length cost (unfolding family text.length j) (fix family j) := by
    intro j shorter hshorter
    exact unfolding_agree (fun m _ => h m) (shorter.length + 1) (Nat.le_refl _) _ _ (by omega)
      (Nat.le_refl _) j shorter (by omega)
  exact (h text.length _ _ hinner i text (by omega)).1

end Recursion

/-! ### Repetition -/

theorem contracts_many {p : Reader α} (hp : p.Takes 1) :
    Contracts 0 (fun (more : Unit → Reader (List α)) _ =>
      p.branch (fun a => return a :: (← more ())) (pure [])) := by
  intro n more more' hmore _
  refine (hp.agree _).branch (fun a => ?_) (agree_pure _ _) (Nat.zero_le (1 + 0))
  exact (hmore ()).bind (fun _ => agree_pure _ _) (by omega)

theorem many_eq {p : Reader α} (hp : p.Takes 1) :
    many p = p.branch (fun a => return a :: (← many p)) (pure []) :=
  (contracts_many hp).fix_eq ()

theorem takes_many {p : Reader α} (hp : p.Takes 1) : (many p).Takes 0 :=
  (contracts_many hp).takes ()

theorem Agree.many {n : Nat} {p q : Reader α} (h : Agree n 1 p q) :
    Agree n 0 (many p) (many q) := by
  refine fix_agree (fun m hm more more' hmore _ => ?_) ()
  refine (h.mono hm (Nat.le_refl _)).branch (fun a => ?_) (agree_pure _ _) (Nat.zero_le (1 + 0))
  exact (hmore ()).bind (fun _ => agree_pure _ _) (by omega)

theorem many_read {p : Reader α} (hp : p.Takes 1) {text next rest : List Char} {a : α}
    {others : List α} (hfirst : p text = .read a next)
    (hothers : many p next = .read others rest) :
    many p text = .read (a :: others) rest := by
  rw [many_eq hp, branch_read _ _ hfirst, bind_read _ hothers, pure_apply]

theorem many_refuses {p : Reader α} (hp : p.Takes 1) {text : List Char} (h : p.Refuses text) :
    many p text = .read [] text := by
  rw [many_eq hp, branch_refuses _ _ h, pure_apply]

theorem many_nil_inv {p : Reader α} (hp : p.Takes 1) {text rest : List Char}
    (h : many p text = .read [] rest) : rest = text := by
  rw [many_eq hp] at h
  rcases branch_inv h with ⟨a, middle, -, hread⟩ | ⟨-, hread⟩
  · obtain ⟨others, next, -, hread⟩ := bind_inv hread
    cases hread
  · cases hread
    rfl

theorem Agree.separated1 {n : Nat} {s : Reader β} {p q : Reader α} (hs : s.Takes 1)
    (h : Agree n 1 p q) : Agree n 1 (separated1 s p) (separated1 s q) := by
  refine h.bind (fun a => ?_) (Nat.le_refl (1 + 0))
  have hitem : Agree (n - 1) 1 (do let _ ← s; p) (do let _ ← s; q) :=
    (hs.agree _).bind (fun _ => h.mono (by omega) (Nat.le_refl _)) (by omega)
  exact hitem.many.bind (fun _ => agree_pure _ _) (Nat.le_refl (0 + 0))

theorem Agree.separated {n : Nat} {s : Reader β} {p q : Reader α} (hs : s.Takes 1)
    (h : Agree n 1 p q) : Agree n 0 (separated s p) (separated s q) := by
  refine h.branch (fun a => ?_) (agree_pure _ _) (Nat.zero_le (1 + 0))
  have hitem : Agree (n - 1) 1 (do let _ ← s; p) (do let _ ← s; q) :=
    (hs.agree _).bind (fun _ => h.mono (by omega) (Nat.le_refl _)) (by omega)
  exact hitem.many.bind (fun _ => agree_pure _ _) (Nat.le_refl (0 + 0))

theorem Agree.many1 {n : Nat} {p q : Reader α} (h : Agree n 1 p q) :
    Agree n 1 (many1 p) (many1 q) := by
  refine h.bind (fun a => ?_) (Nat.le_refl (1 + 0))
  exact (h.mono (by omega) (Nat.le_refl _)).many.bind (fun _ => agree_pure _ _) (by omega)

theorem contracts_manyUntil {p : Reader α} {close : Reader β} (hp : p.Takes 1)
    (hclose : close.Takes 1) :
    Contracts 1 (fun (more : Unit → Reader (List α)) _ => close.branch (fun _ => pure []) (do
      let first ← p
      let others ← more ()
      return first :: others)) := by
  intro n more more' hmore _
  refine (hclose.agree _).branch (fun _ => agree_pure _ _) ?_ (Nat.le_refl (1 + 0))
  refine (hp.agree _).bind (fun first => ?_) (Nat.le_add_right 1 1)
  exact (hmore ()).bind (fun _ => agree_pure _ _) (by omega)

theorem manyUntil_eq {p : Reader α} {close : Reader β} (hp : p.Takes 1) (hclose : close.Takes 1) :
    manyUntil p close = close.branch (fun _ => pure []) (do
      let first ← p
      let others ← manyUntil p close
      return first :: others) :=
  (contracts_manyUntil hp hclose).fix_eq ()

theorem Agree.manyUntil {n : Nat} {p q : Reader α} {close : Reader β} (hp : Agree n 1 p q)
    (hclose : close.Takes 1) : Agree n 1 (manyUntil p close) (manyUntil q close) := by
  refine fix_agree (fun m hm more more' hmore _ => ?_) ()
  refine (hclose.agree _).branch (fun _ => agree_pure _ _) ?_ (Nat.le_refl (1 + 0))
  refine (hp.mono hm (Nat.le_refl _)).bind (fun first => ?_) (Nat.le_add_right 1 1)
  exact (hmore ()).bind (fun _ => agree_pure _ _) (by omega)

/-! ### Growing a value -/

/-- On texts of fewer than `n` characters both steps do the same, and a step that gives a larger
value takes at least one character. -/
def StepsAgree (n : Nat) (p q : Reader (Option α)) : Prop :=
  ∀ text, text.length < n → p text = q text ∧
    (∀ a rest, p text = .read (some a) rest → rest.length + 1 ≤ text.length) ∧
    ∀ rest, p text = .read none rest → rest.length ≤ text.length

theorem StepsAgree.stop (n : Nat) : StepsAgree n (pure none : Reader (Option α)) (pure none) := by
  intro text _
  refine ⟨rfl, fun a rest h => ?_, fun rest h => ?_⟩
  · cases h
  · cases h
    exact Nat.le_refl _

theorem StepsAgree.mono {n m : Nat} {p q : Reader (Option α)} (h : StepsAgree n p q)
    (hm : m ≤ n) : StepsAgree m p q :=
  fun text htext => h text (by omega)

/-- A step that starts by taking something. -/
theorem StepsAgree.branch {n : Nat} {p q : Reader α} {f g : α → Reader (Option β)}
    {o o' : Reader (Option β)} (hpq : Agree n 1 p q) (hfg : ∀ a, Agree (n - 1) 0 (f a) (g a))
    (ho : StepsAgree n o o') : StepsAgree n (p.branch f o) (q.branch g o') := by
  intro text htext
  obtain ⟨heq, hread⟩ := hpq text htext
  cases hp : p text with
  | stuck place =>
    rw [branch_refuses f o ⟨place, hp⟩, branch_refuses g o' ⟨place, heq ▸ hp⟩]
    exact ho text htext
  | read a rest =>
    have hrest := hread a rest hp
    rw [branch_read f o hp, branch_read g o' (heq ▸ hp)]
    obtain ⟨heq', hread'⟩ := hfg a rest (by omega)
    refine ⟨heq', fun b rest' h => ?_, fun rest' h => ?_⟩
    · have := hread' _ rest' h
      omega
    · have := hread' _ rest' h
      omega

/-- One round of `extend`. -/
theorem agree_extend_round {n : Nat} {step step' : Reader (Option α)} {more more' : α → Reader α}
    {a : α} (hstep : StepsAgree (n + 1) step step') (hmore : ∀ b, Agree n 0 (more b) (more' b)) :
    Agree (n + 1) 0
      (do match ← step with
          | some larger => more larger
          | none => pure a)
      (do match ← step' with
          | some larger => more' larger
          | none => pure a) := by
  intro text htext
  obtain ⟨heq, hsome, hnone⟩ := hstep text htext
  cases hp : step text with
  | stuck place =>
    rw [bind_stuck _ hp, bind_stuck _ (heq ▸ hp)]
    exact ⟨rfl, fun a rest h => by cases h⟩
  | read larger rest =>
    rw [bind_read _ hp, bind_read _ (heq ▸ hp)]
    cases larger with
    | none =>
      have hrest := hnone rest hp
      refine ⟨rfl, fun b rest' h => ?_⟩
      cases h
      exact hrest
    | some larger =>
      have hrest := hsome larger rest hp
      obtain ⟨heq', hread'⟩ := hmore larger rest (by omega)
      refine ⟨heq', fun b rest' h => ?_⟩
      have := hread' b rest' h
      omega

theorem Agree.extend {n : Nat} {step step' : α → Reader (Option α)}
    (h : ∀ a, StepsAgree n (step a) (step' a)) (a : α) :
    Agree n 0 (extend step a) (extend step' a) := by
  refine fix_agree (fun m hm more more' hmore b => ?_) a
  exact agree_extend_round ((h b).mono hm) hmore

theorem contracts_extend {step : α → Reader (Option α)}
    (h : ∀ n a, StepsAgree n (step a) (step a)) :
    Contracts 0 (fun (more : α → Reader α) a => do
      match ← step a with
      | some larger => more larger
      | none => pure a) := by
  intro n more more' hmore b
  exact agree_extend_round (h (n + 1) b) hmore

theorem extend_eq {step : α → Reader (Option α)} (h : ∀ n a, StepsAgree n (step a) (step a))
    (a : α) :
    extend step a = (do
      match ← step a with
      | some larger => extend step larger
      | none => pure a) :=
  (contracts_extend h).fix_eq a

theorem extend_step {step : α → Reader (Option α)} (h : ∀ n a, StepsAgree n (step a) (step a))
    {a larger : α} {text rest : List Char} (hread : step a text = .read (some larger) rest) :
    extend step a text = extend step larger rest := by
  rw [extend_eq h a, bind_read _ hread]

theorem extend_stop {step : α → Reader (Option α)} (h : ∀ n a, StepsAgree n (step a) (step a))
    {a : α} {text rest : List Char} (hread : step a text = .read none rest) :
    extend step a text = .read a rest := by
  rw [extend_eq h a, bind_read _ hread]
  rfl

/-- What every round keeps holds of the value at the end, where a last round gives no larger one. -/
theorem extend_invariant {step : α → Reader (Option α)}
    (h : ∀ n a, StepsAgree n (step a) (step a)) {P : α → List Char → Prop}
    (hstep : ∀ a text larger rest, P a text → step a text = .read (some larger) rest →
      P larger rest) {a b : α} {text rest : List Char} (ha : P a text)
    (hread : extend step a text = .read b rest) :
    ∃ last, P b last ∧ step b last = .read none rest := by
  -- a round that gives a larger value leaves less text
  induction hn : text.length using Nat.strongRecOn generalizing a text with
  | ind n ih =>
    rw [extend_eq h a] at hread
    obtain ⟨found, next, hfound, hread⟩ := bind_inv hread
    cases found with
    | none =>
      cases hread
      exact ⟨text, ha, hfound⟩
    | some larger =>
      obtain ⟨-, hsome, -⟩ := h (text.length + 1) a text (Nat.lt_succ_self _)
      have hshorter := hsome larger next hfound
      exact ih next.length (by omega) (hstep a text larger next ha hfound) hread rfl

end GlslShrink.Reader
