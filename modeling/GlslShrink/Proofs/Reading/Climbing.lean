import GlslShrink.Proofs.Reading.Progress

/-!
Climbing the levels builds the one tree that they ask for. A text with operands and binary operators
in turn is a `Chain`; an `OperatorTree` groups the operands of a chain. In a tree that respects the
levels (`Layered`) the operator at the root is the last one of the lowest level, so a chain has at
most one such tree (`eq_of_inOrder_eq`).

Climbing grows a tree to the right. At every round the operators read so far are of the asked level
or higher, and the tree may stand on the left of whatever operator comes next (`Grown`): the right
operand of the round before has taken all operators of a higher level.
-/

set_option autoImplicit false

namespace GlslShrink.Expression

open Reader Token

/-! ### Operators and operands -/

/-- A binary operator with its level. -/
structure Operator where
  symbol : String
  level : Nat
  known : Precedence.ofBinary? symbol = some level

/-- Operands with operators between them. -/
@[ext]
structure Chain where
  first : Node
  others : List (Operator × Node)

/-- Operators over operands. An operand is a whole expression: operators inside of it, such as those
between parentheses, do not count. -/
inductive OperatorTree where
  | operand (node : Node)
  | join (op : Operator) (left right : OperatorTree)

theorem Operator.eq_of_symbol {a b : Operator} (h : a.symbol = b.symbol) : a = b := by
  obtain ⟨symbol, level, known⟩ := a
  obtain ⟨symbol', level', known'⟩ := b
  obtain rfl : symbol = symbol' := h
  obtain rfl : level = level' := Option.some.inj (known.symm.trans known')
  rfl

/-- One chain after the other, with an operator between them. -/
def Chain.join (op : Operator) (left right : Chain) : Chain :=
  ⟨left.first, left.others ++ (op, right.first) :: right.others⟩

namespace OperatorTree

/-- The expression that the tree stands for. -/
def toNode : OperatorTree → Node
  | operand node => node
  | join op left right => .binary op.symbol left.toNode right.toNode

/-- The operands and operators from left to right. -/
def inOrder : OperatorTree → Chain
  | operand node => ⟨node, []⟩
  | join op left right => .join op left.inOrder right.inOrder

/-- The operator at the root, if there is one, has at least this level. -/
def AtLeast (bound : Nat) : OperatorTree → Prop
  | operand _ => True
  | join op _ _ => bound ≤ op.level

/-- Every operator has none of a lower level right below it on its left, and none of a lower or the
same level right below it on its right. -/
def Layered : OperatorTree → Prop
  | operand _ => True
  | join op left right =>
    left.AtLeast op.level ∧ right.AtLeast (op.level + 1) ∧ left.Layered ∧ right.Layered

theorem AtLeast.mono {tree : OperatorTree} {bound less : Nat} (h : tree.AtLeast bound)
    (hle : less ≤ bound) : tree.AtLeast less := by
  cases tree with
  | operand node => trivial
  | join op left right => exact Nat.le_trans hle h

/-- No operator of a tree has a lower level than the one at the root. -/
theorem Layered.le_level {tree : OperatorTree} (h : tree.Layered) {bound : Nat}
    (hbound : tree.AtLeast bound) : ∀ entry ∈ tree.inOrder.others, bound ≤ entry.1.level := by
  induction tree generalizing bound with
  | operand node => exact fun _ hentry => absurd hentry List.not_mem_nil
  | join op left right ihleft ihright =>
    obtain ⟨hleft, hright, hlayered, hlayered'⟩ := h
    have hop : bound ≤ op.level := hbound
    intro entry hentry
    rcases List.mem_append.mp hentry with hentry | hentry
    · exact ihleft hlayered (hleft.mono hop) entry hentry
    · rcases List.mem_cons.mp hentry with rfl | hentry
      · exact hop
      · exact ihright hlayered' (hright.mono (Nat.le_succ_of_le hop)) entry hentry

theorem atLeast_of_le_level {tree : OperatorTree} {bound : Nat}
    (h : ∀ entry ∈ tree.inOrder.others, bound ≤ entry.1.level) : tree.AtLeast bound := by
  cases tree with
  | operand node => trivial
  | join op left right => exact h _ (List.mem_append_right _ List.mem_cons_self)

/-- The root `op'` of one tree does not stand in the left part of another one: its level would be
that of `op` or higher, and since `op` would stand in the right part of the first tree, also
lower. -/
theorem not_root_in_left {op op' : Operator} {left right left' right' : OperatorTree}
    (h : (join op left right).Layered) (h' : (join op' left' right').Layered)
    {between : List (Operator × Node)} {node node' : Node}
    (hleft : left.inOrder.others = left'.inOrder.others ++ (op', node') :: between)
    (hright : right'.inOrder.others = between ++ (op, node) :: right.inOrder.others) : False := by
  obtain ⟨hroot, -, hlayered, -⟩ := h
  obtain ⟨-, hroot', -, hlayered'⟩ := h'
  have hle : op.level ≤ op'.level := hlayered.le_level hroot (op', node') (by simp [hleft])
  have hlt : op'.level + 1 ≤ op.level := hlayered'.le_level hroot' (op, node) (by simp [hright])
  omega

/-- The roots of two trees of one chain stand at the same place. -/
theorem left_others_eq {op op' : Operator} {left right left' right' : OperatorTree}
    (h : (join op left right).Layered) (h' : (join op' left' right').Layered)
    (heq : (join op left right).inOrder.others = (join op' left' right').inOrder.others) :
    left.inOrder.others = left'.inOrder.others := by
  rcases List.append_eq_append_iff.mp heq with ⟨more, hleft, hright⟩ | ⟨more, hleft, hright⟩
  · cases more with
    | nil => rw [hleft, List.append_nil]
    | cons entry more =>
      obtain ⟨rfl, hrest⟩ := List.cons.inj hright
      exact (not_root_in_left h' h hleft hrest).elim
  · cases more with
    | nil => rw [hleft, List.append_nil]
    | cons entry more =>
      obtain ⟨rfl, hrest⟩ := List.cons.inj hright
      exact (not_root_in_left h h' hleft hrest).elim

/-- A chain has at most one tree that respects the levels. -/
theorem eq_of_inOrder_eq {tree other : OperatorTree} (h : tree.Layered) (h' : other.Layered)
    (heq : tree.inOrder = other.inOrder) : tree = other := by
  induction tree generalizing other with
  | operand node =>
    cases other with
    | operand node' => rw [(Chain.mk.inj heq).1]
    | join op left right => exact absurd (Chain.mk.inj heq).2 (by simp)
  | join op left right ihleft ihright =>
    cases other with
    | operand node => exact absurd (Chain.mk.inj heq).2 (by simp)
    | join op' left' right' =>
      obtain ⟨hfirst, hothers⟩ := Chain.mk.inj heq
      have hleft := left_others_eq h h' hothers
      rw [hleft] at hothers
      obtain ⟨hentry, hright⟩ := List.cons.inj (List.append_cancel_left hothers)
      obtain ⟨rfl, hfirst'⟩ := Prod.mk.inj hentry
      obtain ⟨-, -, hlayered, hlayered'⟩ := h
      obtain ⟨-, -, hother, hother'⟩ := h'
      obtain rfl := ihleft hlayered hother (Chain.ext hfirst hleft)
      obtain rfl := ihright hlayered' hother' (Chain.ext hfirst' hright)
      rfl

end OperatorTree

/-! ### Reading operands and operators in turn -/

variable {text rest : List Char} {first : Node} {others : List (Operator × Node)}

/-- An operand is read, then an operator and an operand for each of the others. Each is read from
the text that the one before has left, and the last one leaves the rest. -/
def Turns : (text : List Char) → Node → List (Operator × Node) → (rest : List Char) → Prop
  | text, first, [], rest => unary expression text = .read first rest
  | text, first, (op, node) :: others, rest =>
    ∃ next after, unary expression text = .read first next ∧
      operator next = .read op.symbol after ∧ Turns after node others rest

theorem Turns.length_lt (h : Turns text first others rest) : rest.length < text.length := by
  induction others generalizing text first with
  | nil => exact takes_unary _ _ _ h
  | cons entry others ih =>
    obtain ⟨next, after, hfirst, hop, hothers⟩ := h
    have hunary := takes_unary _ _ _ hfirst
    have hoperator := takes_operator _ _ _ hop
    have hlength := ih hothers
    omega

/-- A chain that goes on after its first operand leaves less than that operand does. -/
theorem Turns.not_operand {op : Operator} {node : Node}
    (h : Turns text first ((op, node) :: others) rest) :
    ¬ ∃ last, unary expression text = .read last rest := by
  rintro ⟨last, hlast⟩
  obtain ⟨next, after, hfirst, hop, hothers⟩ := h
  cases hfirst.symm.trans hlast
  have hoperator := takes_operator _ _ _ hop
  have hlength := hothers.length_lt
  omega

/-- Between a text and its rest there is only one chain. -/
theorem Turns.unique {first' : Node} {others' : List (Operator × Node)}
    (h : Turns text first others rest) (h' : Turns text first' others' rest) :
    first = first' ∧ others = others' := by
  induction others generalizing text first first' others' with
  | nil =>
    cases others' with
    | nil =>
      cases h.symm.trans h'
      exact ⟨rfl, rfl⟩
    | cons entry others' => exact absurd ⟨first, h⟩ h'.not_operand
  | cons entry others ih =>
    cases others' with
    | nil => exact absurd ⟨first', h'⟩ h.not_operand
    | cons entry' others' =>
      obtain ⟨next, after, hfirst, hop, hothers⟩ := h
      obtain ⟨next', after', hfirst', hop', hothers'⟩ := h'
      cases hfirst.symm.trans hfirst'
      obtain ⟨hsymbol, rfl⟩ := Outcome.read.inj (hop.symm.trans hop')
      obtain ⟨hnode, rfl⟩ := ih hothers hothers'
      exact ⟨rfl, by rw [Prod.ext (Operator.eq_of_symbol hsymbol) hnode]⟩

/-- A chain is read as its parts are. -/
theorem turns_append_iff {op : Operator} {node : Node} {others' : List (Operator × Node)} :
    Turns text first (others ++ (op, node) :: others') rest ↔
      ∃ middle next, Turns text first others middle ∧ operator middle = .read op.symbol next ∧
        Turns next node others' rest := by
  induction others generalizing text first with
  | nil => exact Iff.rfl
  | cons entry others ih =>
    refine ⟨?_, ?_⟩
    · rintro ⟨start, after, hfirst, hop, hothers⟩
      obtain ⟨middle, next, hothers, hmiddle, hnext⟩ := ih.mp hothers
      exact ⟨middle, next, ⟨start, after, hfirst, hop, hothers⟩, hmiddle, hnext⟩
    · rintro ⟨middle, next, ⟨start, after, hfirst, hop, hothers⟩, hmiddle, hnext⟩
      exact ⟨start, after, hfirst, hop, ih.mpr ⟨middle, next, hothers, hmiddle, hnext⟩⟩

/-! ### One round -/

/-- If a binary operator comes next, its level is lower. -/
def Below (least : Nat) (text : List Char) : Prop :=
  ∀ (op : Operator) next, operator text = .read op.symbol next → op.level < least

theorem operatorFrom_read_iff {least : Nat} {found : String × Nat} :
    operatorFrom least text = .read found rest ↔ ∃ op : Operator,
      found = (op.symbol, op.level) ∧ operator text = .read op.symbol rest ∧ least ≤ op.level := by
  refine ⟨fun h => ?_, ?_⟩
  · obtain ⟨symbol, next, hread, h⟩ := bind_inv h
    cases hlevel : Precedence.ofBinary? symbol with
    | none =>
      rw [hlevel] at h
      cases h
    | some level =>
      simp only [hlevel] at h
      split at h
      · rename_i hle
        cases h
        exact ⟨⟨symbol, level, hlevel⟩, rfl, hread, hle⟩
      · cases h
  · rintro ⟨op, rfl, hread, hle⟩
    rw [operatorFrom, bind_read _ hread]
    simp only [op.known, if_pos hle]
    rfl

theorem operatorFrom_refuses_iff {least : Nat} :
    (operatorFrom least).Refuses text ↔ Below least text := by
  refine ⟨fun h op next hop => ?_, fun h => ?_⟩
  · refine Nat.lt_of_not_le fun hle => ?_
    exact not_refuses_of_read (operatorFrom_read_iff.mpr ⟨op, rfl, hop, hle⟩) h
  · rcases read_or_refuses (operatorFrom least) text with ⟨found, next, hread⟩ | hrefuses
    · obtain ⟨op, -, hop, hle⟩ := operatorFrom_read_iff.mp hread
      exact absurd (h op next hop) (Nat.not_lt_of_le hle)
    · exact hrefuses

theorem joined_some_iff {least : Nat} {left larger : Node} :
    joined (binary expression) least left text = .read (some larger) rest ↔
      ∃ (op : Operator) (next : List Char) (right : Node), operator text = .read op.symbol next ∧
        least ≤ op.level ∧ binary expression (op.level + 1) next = .read right rest ∧
        larger = .binary op.symbol left right := by
  refine ⟨fun h => ?_, ?_⟩
  · rcases branch_inv h with ⟨found, next, hfound, h⟩ | ⟨-, h⟩
    · obtain ⟨op, rfl, hop, hle⟩ := operatorFrom_read_iff.mp hfound
      obtain ⟨right, after, hright, h⟩ := bind_inv h
      cases h
      exact ⟨op, next, right, hop, hle, hright, rfl⟩
    · cases h
  · rintro ⟨op, next, right, hop, hle, hright, rfl⟩
    rw [joined, branch_read _ _ (operatorFrom_read_iff.mpr ⟨op, rfl, hop, hle⟩)]
    exact bind_read _ hright

theorem joined_none_iff {least : Nat} {left : Node} :
    joined (binary expression) least left text = .read none rest ↔
      rest = text ∧ Below least text := by
  refine ⟨fun h => ?_, ?_⟩
  · rcases branch_inv h with ⟨found, next, hfound, h⟩ | ⟨hrefuses, h⟩
    · obtain ⟨right, after, hright, h⟩ := bind_inv h
      cases h
    · cases h
      exact ⟨rfl, operatorFrom_refuses_iff.mp hrefuses⟩
  · rintro ⟨rfl, hbelow⟩
    rw [joined, branch_refuses _ _ (operatorFrom_refuses_iff.mpr hbelow), pure_apply]

/-! ### Climbing -/

/-- The tree was read off the front of the text, from operators of level `least` or more, and the
next operator may have it on its left. -/
structure Grown (least : Nat) (text : List Char) (tree : OperatorTree) (rest : List Char) :
    Prop where
  turns : Turns text tree.inOrder.first tree.inOrder.others rest
  layered : tree.Layered
  atLeast : tree.AtLeast least
  next : ∀ (op : Operator) after, operator rest = .read op.symbol after → tree.AtLeast op.level

theorem Below.atLeast {least : Nat} {tree : OperatorTree} (h : Below least rest)
    (htree : tree.AtLeast least) (op : Operator) (after : List Char)
    (hop : operator rest = .read op.symbol after) : tree.AtLeast op.level :=
  htree.mono (Nat.le_of_lt (h op after hop))

theorem grown_operand {least : Nat} {node : Node} (h : unary expression text = .read node rest) :
    Grown least text (.operand node) rest :=
  ⟨h, trivial, trivial, fun _ _ _ => trivial⟩

/-- A round puts the tree on the left of the operator that comes next. -/
theorem Grown.join {least : Nat} {left right : OperatorTree} {op : Operator}
    {middle next : List Char} (hleft : Grown least text left middle)
    (hop : operator middle = .read op.symbol next) (hle : least ≤ op.level)
    (hright : Grown (op.level + 1) next right rest) (hbelow : Below (op.level + 1) rest) :
    Grown least text (.join op left right) rest where
  turns := turns_append_iff.mpr ⟨middle, next, hleft.turns, hop, hright.turns⟩
  layered := ⟨hleft.next op next hop, hright.atLeast, hleft.layered, hright.layered⟩
  atLeast := hle
  next op' after hop' := Nat.le_of_lt_succ (hbelow op' after hop')

/-- Whatever is read by climbing has grown round by round. -/
theorem exists_grown_of_binary {least : Nat} {node : Node}
    (h : binary expression least text = .read node rest) :
    ∃ tree : OperatorTree, tree.toNode = node ∧ Grown least text tree rest ∧ Below least rest := by
  -- the right operands are read from shorter texts
  induction hn : text.length using Nat.strongRecOn generalizing text rest least node with
  | ind n ih =>
    rw [binary_eq] at h
    obtain ⟨first, start, hfirst, hloop⟩ := bind_inv h
    have hround : ∀ left middle larger after,
        (∃ tree : OperatorTree, tree.toNode = left ∧ Grown least text tree middle) →
        joined (binary expression) least left middle = .read (some larger) after →
        ∃ tree : OperatorTree, tree.toNode = larger ∧ Grown least text tree after := by
      rintro _ middle larger after ⟨tree, rfl, hgrown⟩ hstep
      obtain ⟨op, next, right, hop, hle, hright, rfl⟩ := joined_some_iff.mp hstep
      have hmiddle := hgrown.turns.length_lt
      have hnext := takes_operator _ _ _ hop
      obtain ⟨tree', rfl, hgrown', hbelow⟩ := ih next.length (by omega) hright rfl
      exact ⟨.join op tree tree', rfl, hgrown.join hop hle hgrown' hbelow⟩
    obtain ⟨last, ⟨tree, htree, hgrown⟩, hlast⟩ := extend_invariant (joined_steps least) hround
      ⟨.operand first, rfl, grown_operand hfirst⟩ hloop
    obtain ⟨rfl, hbelow⟩ := joined_none_iff.mp hlast
    exact ⟨tree, htree, hgrown, hbelow⟩

/-- Climbing over a text that a tree was read off goes through that tree. -/
theorem binary_of_grown {least : Nat} {tree : OperatorTree} (h : Grown least text tree rest) :
    binary expression least text = extend (joined (binary expression) least) tree.toNode rest := by
  induction tree generalizing least text rest with
  | operand node =>
    rw [binary_eq, bind_read _ h.turns]
    rfl
  | join op left right ihleft ihright =>
    obtain ⟨middle, next, hturns, hop, hturns'⟩ := turns_append_iff.mp h.turns
    obtain ⟨hleft, hright, hlayered, hlayered'⟩ := h.layered
    have hle : least ≤ op.level := h.atLeast
    have hbelow : Below (op.level + 1) rest := fun op' after hop' =>
      Nat.lt_succ_of_le (h.next op' after hop')
    have hgrown : Grown least text left middle := by
      refine ⟨hturns, hlayered, hleft.mono hle, fun op' after hop' => ?_⟩
      obtain ⟨hsymbol, -⟩ := Outcome.read.inj (hop.symm.trans hop')
      rw [← Operator.eq_of_symbol hsymbol]
      exact hleft
    have hgrown' : Grown (op.level + 1) next right rest :=
      ⟨hturns', hlayered', hright, hbelow.atLeast hright⟩
    have hoperand : binary expression (op.level + 1) next = .read right.toNode rest := by
      rw [ihright hgrown', extend_stop (joined_steps _) (joined_none_iff.mpr ⟨rfl, hbelow⟩)]
    rw [ihleft hgrown, extend_step (joined_steps least)
      (joined_some_iff.mpr ⟨op, next, right.toNode, hop, hle, hoperand, rfl⟩)]
    rfl

/-- The tree is the one that the operands and operators in front of the rest make when the levels
are respected, all of them are of level `least` or more, and no such operator comes next. -/
structure Climbs (least : Nat) (text : List Char) (tree : OperatorTree) (rest : List Char) :
    Prop where
  chain : ∀ chain : Chain, Turns text chain.first chain.others rest ↔ chain = tree.inOrder
  levels : ∀ entry ∈ tree.inOrder.others, least ≤ entry.1.level
  layered : tree.Layered
  only : ∀ other : OperatorTree, other.inOrder = tree.inOrder → other.Layered → other = tree
  below : Below least rest

/-- Climbing reads a text as the one tree that respects the levels of the operators, as far as they
are of level `least` or more. -/
theorem binary_read_iff_climbs {least : Nat} {node : Node} :
    binary expression least text = .read node rest ↔
      ∃ tree : OperatorTree, tree.toNode = node ∧ Climbs least text tree rest := by
  refine ⟨fun h => ?_, ?_⟩
  · obtain ⟨tree, htree, hgrown, hbelow⟩ := exists_grown_of_binary h
    refine ⟨tree, htree, fun chain => ⟨fun hturns => ?_, ?_⟩,
      hgrown.layered.le_level hgrown.atLeast, hgrown.layered, fun other heq hother => ?_, hbelow⟩
    · obtain ⟨hfirst, hothers⟩ := hturns.unique hgrown.turns
      exact Chain.ext hfirst hothers
    · rintro rfl
      exact hgrown.turns
    · exact OperatorTree.eq_of_inOrder_eq hother hgrown.layered heq
  · rintro ⟨tree, rfl, hclimbs⟩
    have hatLeast := OperatorTree.atLeast_of_le_level hclimbs.levels
    have hgrown : Grown least text tree rest :=
      ⟨(hclimbs.chain _).mpr rfl, hclimbs.layered, hatLeast, hclimbs.below.atLeast hatLeast⟩
    rw [binary_of_grown hgrown,
      extend_stop (joined_steps least) (joined_none_iff.mpr ⟨rfl, hclimbs.below⟩)]

end GlslShrink.Expression
