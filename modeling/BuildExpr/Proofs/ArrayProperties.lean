import BuildExpr.Model.File
import BuildExpr.Operation.Wording
import BuildExpr.Proofs.Escaping

/-!
# Properties given as arrays

An array in a model file becomes a list with `;` between its items, which are not escaped. An item without
separators needs no escape, so the list is that of the escaped items (`toText_list`) and is read as the items
exactly if they are a list that can be written. Where the items have no brackets either, only a backslash at
the end of an item that another one follows can be in the way: it escapes the separator between the two, and
no other text could tell them apart (`expand_list_iff_exists`).
-/

namespace BuildExpr

open Elements (escape expand Held Writable)

/-- The operations on lists take a text for the list of some items. -/
structure Operation.ReadsAs (list : Text) (items : List Text) : Prop where
  /-- The items are joined. -/
  join : ∀ (call : Call) (glue : Text), call.parameters = [list, glue] →
    Operation.join.evaluate call = pure (Text.join glue items)
  /-- An element is looked for among the items. -/
  inList : ∀ (call : Call) (element : Text), call.parameters = [element, list] →
    Operation.inList.evaluate call = pure (.ofBool (items.contains element))
  /-- The first of equal items is kept. -/
  removeDuplicates : ∀ call : Call, call.parameters = [list] →
    Operation.removeDuplicates.evaluate call = pure (Text.join [';'] items.eraseDups)

/-- An operation that depends on its parameters only gives their result. -/
theorem Operation.evaluate_ofParameters (name : Text) (arity : Arity)
    (result : List Text → Except Cause Text) (call : Call) :
    (Operation.ofParameters name arity result).evaluate call = Eval.ofExcept (result call.parameters) := rfl

/-- They take it for the list of its elements. -/
theorem Operation.readsAs_expand (list : Text) : Operation.ReadsAs list (expand list) where
  join call glue hparameters := by
    rw [Operation.join, Operation.evaluate_ofParameters, hparameters]
    rfl
  inList call element hparameters := by
    rw [Operation.inList, Operation.evaluate_ofParameters, hparameters]
    rfl
  removeDuplicates call hparameters := by
    rw [Operation.removeDuplicates, Operation.evaluate_ofParameters, hparameters]
    rfl

namespace PropertyValue

variable {items : List Text}

/-- Items without separators are written as they are when they are escaped. -/
theorem toText_list (h : ∀ item ∈ items, ';' ∉ item) :
    (PropertyValue.list items).toText = Text.join [';'] (items.map escape) := by
  have hescape : items.map escape = items := by
    calc items.map escape = items.map id :=
          List.map_congr_left fun item hmem => Elements.escape_eq_self (h item hmem)
      _ = items := List.map_id items
  rw [hescape]
  rfl

/-- An array of items without separators is read as its items if any text is. -/
theorem expand_list_iff_exists (h : ∀ item ∈ items, ';' ∉ item) :
    expand (PropertyValue.list items).toText = items ↔ ∃ t, expand t = items := by
  rw [toText_list h, Elements.expand_join_escape_iff, Elements.writable_iff]

/-- An array of items that are not empty, without separators and brackets in them, is read as its items
exactly if none but the last ends in a backslash, and then the operations on lists see the items as well.
Otherwise no text is read as the items. -/
theorem expand_list_iff (hne : ∀ item ∈ items, item ≠ [])
    (hplain : ∀ item ∈ items, ';' ∉ item ∧ '[' ∉ item ∧ ']' ∉ item) :
    (expand (PropertyValue.list items).toText = items ↔
        ∀ item ∈ items.dropLast, item.getLast? ≠ some '\\') ∧
      ((∀ item ∈ items.dropLast, item.getLast? ≠ some '\\') →
        Operation.ReadsAs (PropertyValue.list items).toText items) ∧
      ((∃ t, expand t = items) → ∀ item ∈ items.dropLast, item.getLast? ≠ some '\\') := by
  have hfree : ∀ item ∈ items, ';' ∉ item := fun item hmem => (hplain item hmem).1
  -- Without brackets only a backslash at its end makes an item hold the separator behind it.
  have hheld : ∀ item ∈ items.dropLast, Held 0 item ↔ item.getLast? = some '\\' := by
    intro item hmem
    obtain ⟨-, hopen, hclose⟩ := hplain item (List.mem_of_mem_dropLast hmem)
    exact Elements.held_iff_getLast? hopen hclose
  have hwritable : Writable items ↔ ∀ item ∈ items.dropLast, item.getLast? ≠ some '\\' := by
    constructor
    · exact fun h item hmem => mt (hheld item hmem).2 (h.not_held item hmem)
    · exact fun h => ⟨hne, fun item hmem => mt (hheld item hmem).1 (h item hmem)⟩
  have hexpand : expand (PropertyValue.list items).toText = items ↔
      ∀ item ∈ items.dropLast, item.getLast? ≠ some '\\' := by
    rw [toText_list hfree, Elements.expand_join_escape_iff, hwritable]
  refine ⟨hexpand, fun hlast => ?_, fun hexists => hexpand.1 ((expand_list_iff_exists hfree).2 hexists)⟩
  have hreads := Operation.readsAs_expand (PropertyValue.list items).toText
  rwa [hexpand.2 hlast] at hreads

/-- Items with backslashes in front, inside and at the end of the array. -/
theorem expand_list_paths :
    let items : List Text := ["\\\\server\\share", "C:\\dir", "D:\\"]
    (∀ item ∈ items, item ≠ []) ∧ (∀ item ∈ items, ';' ∉ item ∧ '[' ∉ item ∧ ']' ∉ item) ∧
      (∀ item ∈ items.dropLast, item.getLast? ≠ some '\\') ∧
      expand (PropertyValue.list items).toText = items ∧
      Operation.ReadsAs (PropertyValue.list items).toText items :=
  ⟨by decide, by decide, by decide, (expand_list_iff (by decide) (by decide)).1.2 (by decide),
    (expand_list_iff (by decide) (by decide)).2.1 (by decide)⟩

/-- A backslash at the end of an item makes one of it and the next item. -/
theorem expand_list_ne :
    let items : List Text := ["C:\\", "D"]
    (∀ item ∈ items, item ≠ []) ∧ (∀ item ∈ items, ';' ∉ item ∧ '[' ∉ item ∧ ']' ∉ item) ∧
      expand (PropertyValue.list items).toText ≠ items := by decide

end PropertyValue

end BuildExpr
