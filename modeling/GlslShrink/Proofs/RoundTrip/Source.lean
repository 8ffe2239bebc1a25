import GlslShrink.Proofs.Reading.Soundness
import GlslShrink.Proofs.RoundTrip.Shader
import GlslShrink.Proofs.Traversal.Laws

/-!
Reading what was read and printed. A tree that was read under a start rule is as the grammar builds
it, and an `else` in it is read with its own `if`; so unless it holds one of the three ambiguous
forms, its text is read under the same rule as a tree of the same shape. The forms are needed: a
field of an integer, a size with a comma or an assignment, and the argument `void` are all read
within parentheses, which are not printed again.
-/

set_option autoImplicit false

namespace GlslShrink

open Reader Token Piece Braces

/-! ### Marks are not printed -/

namespace Node

/-- A fold that looks at no marks does not tell a tree from its shape. -/
theorem fold_bare {α : Type} {combine : Node → List (Slot α) → α}
    (h : ∀ (node : Node) slots, combine node.bare slots = combine node slots) (node : Node) :
    node.bare.fold combine = node.fold combine := by
  induction node using induct with
  | h node ih =>
    rw [fold_eq, fold_eq combine node, h, bare_slots, map_map_congr ih]

theorem render_bare (separator : String) (node : Node) :
    node.bare.render separator = node.render separator := by
  have hsketch : node.bare.sketch separator = node.sketch separator := by
    apply fold_bare
    intro node slots
    rw [bare_eq]
    rfl
  rw [render, pieces, hsketch, bare_tag]
  rfl

theorem render_of_sameShape {first second : Node} (h : first.sameShape second = true)
    (separator : String) : second.render separator = first.render separator := by
  rw [← render_bare, ← (sameShape_iff first second).mp h, render_bare]

end Node

/-! ### Every start rule -/

section Rules

variable {root : Node} {separator : String}

theorem complete_of_read {text : List Char} {reader : Reader Node} {what : String}
    (h : reader (skipBlank text) = .read root []) :
    Source.complete text reader what = .ok root := by
  rw [Source.complete, h]

theorem continuation_nil : Expression.continuation [] = 0 := by
  obtain ⟨place, hplace⟩ := operator_refuses (stops_nil isOperatorStart)
  rw [Expression.continuation, hplace]
  all_goals exact nofun

theorem follows_nil : Follows 1 [] where
  neat := neat_nil
  apart := by
    rw [seen_nil]
    exact stops_nil _
  low := by
    rw [seen_nil, continuation_nil]
    exact Nat.one_pos

theorem expression_render (htag : root.tag.isExpression = true) (hfits : root.Every Node.Fits) :
    parse (root.render separator) .expression = .ok root.bare := by
  have hread := (legible_expression separator (Printable.expression_of_every root hfits htag) 1
    (by decide)).reads_withComma [] follows_nil
  rw [List.append_nil, seen_nil] at hread
  rw [parse, Node.render, String.toList_ofList, Node.pieces, if_pos htag]
  exact complete_of_read hread

theorem statement_render (htag : root.tag.isStatement = true) (hfits : root.Every Node.Fits) :
    parse (root.render separator) .statement = .ok root.bare := by
  have hend : endsWithOpenIf root = true → (keyword "else").Refuses (seen []) := fun _ => by
    rw [seen_nil]
    exact (word_refuses (stops_nil _)).guarded _
  have hread := (statementRead separator (Printable.statement_of_every root hfits htag)).read []
    neat_nil hend
  rw [List.append_nil, seen_nil] at hread
  have hplain : ¬root.tag.isExpression = true := by
    rw [Tag.isExpression_eq_false_of_isStatement htag]
    exact Bool.false_ne_true
  rw [parse, Node.render, String.toList_ofList, Node.pieces, if_neg hplain]
  exact complete_of_read hread

/-- What was read under a start rule and has none of the ambiguous forms is read back from its
text. -/
theorem parse_render {source : String} {rule : StartRule} (hread : parse source rule = .ok root)
    (hunambiguous : root.Every fun node => node.isUnambiguous = true)
    (hseparator : ∀ c ∈ separator.toList, Text.isBlank c = true) :
    parse (root.render separator) rule = .ok root.bare := by
  obtain ⟨hsound, htag⟩ := parse_formed hread
  have hfits : root.Every Node.Fits := fun node hnode =>
    ⟨(hsound node hnode).1, hunambiguous node hnode, (hsound node hnode).2⟩
  have hshader : ∀ {isFragment : Bool}, Source.shader source.toList isFragment = .ok root →
      Source.shader (root.render separator).toList isFragment = .ok root.bare := by
    intro isFragment hread
    obtain ⟨htag, -, hattributes⟩ := Source.shader_sound hread
    exact shader_render htag hfits hseparator hattributes
  cases rule with
  | shader | vertexShader | fragmentShader => exact hshader hread
  | expression => exact expression_render htag hfits
  | statement => exact statement_render htag hfits

end Rules

/-- A text that is read under a start rule, then printed with any blank separator, is read under the
same rule as a tree of the same shape, and printed alike, if the tree has no field of an integer, no
size looser than a conditional and no argument list `void`. -/
theorem parse_render_readsBack {source separator : String} {rule : StartRule} {root : Node}
    (hread : parse source rule = .ok root)
    (hunambiguous : root.preorder.all Node.isUnambiguous = true)
    (hseparator : ∀ c ∈ separator.toList, Text.isBlank c = true) :
    ∃ read, parse (root.render separator) rule = .ok read ∧ root.sameShape read = true ∧
      read.render separator = root.render separator := by
  have hshape : root.sameShape root.bare = true := by rw [Node.sameShape_iff, Node.bare_bare]
  exact ⟨root.bare, parse_render hread (List.all_eq_true.mp hunambiguous) hseparator, hshape,
    Node.render_of_sameShape hshape separator⟩

/-- Parentheses that are needed are printed, others are not. -/
theorem parse_render_readsBack_parentheses :
    ∃ root, parse "if(((a)-(-b),c)){(d)[(e,f)]=((g));}else f(void);" .statement = .ok root ∧
      root.render "" = "if(a- -b,c){d[e,f]=g;}else f();" ∧
      ∃ read, parse (root.render "") .statement = .ok read ∧ root.sameShape read = true ∧
        read.render "" = root.render "" := by
  have hok : (parse "if(((a)-(-b),c)){(d)[(e,f)]=((g));}else f(void);" .statement).toOption.any
      (fun root => root.preorder.all Node.isUnambiguous &&
        root.render "" == "if(a- -b,c){d[e,f]=g;}else f();") = true := by
    decide +kernel
  obtain ⟨root, hread, hroot⟩ := exists_ok_of_any hok
  rw [Bool.and_eq_true, beq_iff_eq] at hroot
  exact ⟨root, hread, hroot.2, parse_render_readsBack hread hroot.1 nofun⟩

theorem not_readsBack_of_differs {source : String} {rule : StartRule}
    (h : (parse source rule).toOption.any (fun root =>
      !(parse (root.render "") rule).toOption.any root.sameShape) = true) :
    ∃ root, parse source rule = .ok root ∧
      ¬∃ read, parse (root.render "") rule = .ok read ∧ root.sameShape read = true := by
  obtain ⟨root, hread, hroot⟩ := exists_ok_of_any h
  refine ⟨root, hread, ?_⟩
  rintro ⟨read, hback, hshape⟩
  rw [hback, Bool.not_eq_true'] at hroot
  have hother : root.sameShape read = false := hroot
  rw [hshape] at hother
  cases hother

/-- Without their parentheses a field of an integer and the size of an array are not read at all,
and the argument `void` is read as an empty list. -/
theorem not_readsBack_ambiguous :
    (∃ root, parse "(1).x" .expression = .ok root ∧
      ¬∃ read, parse (root.render "") .expression = .ok read ∧ root.sameShape read = true) ∧
    (∃ root, parse "float a[(b,c)];" .statement = .ok root ∧
      ¬∃ read, parse (root.render "") .statement = .ok read ∧ root.sameShape read = true) ∧
    (∃ root, parse "void main(){f((void));}" .shader = .ok root ∧
      ¬∃ read, parse (root.render "") .shader = .ok read ∧ root.sameShape read = true) := by
  refine ⟨not_readsBack_of_differs ?_, not_readsBack_of_differs ?_, not_readsBack_of_differs ?_⟩
  all_goals decide +kernel

end GlslShrink
