import Mathlib.Logic.Function.Basic
import Mathlib.Tactic.Common

/-! Stores: memories whose reads may change hidden state. Code written against a `Store` runs
on a plain function as well, and the lawful ones cannot be told from it. -/

namespace ShellOs.Lib

class Store (σ : Type*) (α β : outParam (Type*)) where
  read : σ → α → β × σ
  write : σ → α → β → σ
  view : σ → α → β

class LawfulStore (σ : Type*) {α β : outParam (Type*)} [DecidableEq α] [Store σ α β] : Prop where
  read_value : ∀ (s : σ) (a : α), (Store.read s a).1 = Store.view s a
  view_read : ∀ (s : σ) (a : α), Store.view (Store.read s a).2 = Store.view s
  view_write : ∀ (s : σ) (a : α) (b : β),
    Store.view (Store.write s a b) = Function.update (Store.view s) a b

instance flatStore {α β : Type*} [DecidableEq α] : Store (α → β) α β where
  read m a := (m a, m)
  write m a b := Function.update m a b
  view m := m

instance {α β : Type*} [DecidableEq α] : LawfulStore (α → β) where
  read_value _ _ := rfl
  view_read _ _ := rfl
  view_write _ _ _ := rfl

end ShellOs.Lib
