import IncrementalSyntax.Edit.Set
import IncrementalSyntax.Syntax.Source

/-!
What a new tree may take over from an old one. A token may be taken over if no edit touches it; an
item, if no edit touches the bytes it depends on. Each is listed under the place where the edits
have moved it. Being listed is not enough: the new text must have the same tokens there, for a token
its own and for an item all that its reading had looked at.
-/
namespace IncrementalSyntax

/-- A token or an item that the new tree has taken over, and where it stood and stands. -/
structure Reused where
  kind : SyntaxKind
  old : TextRange
  new : TextRange
  deriving DecidableEq, Repr

structure OldToken where
  token : Token
  /-- Where it stood. -/
  oldStart : Nat
  /-- Where the edits have moved it. -/
  newStart : Nat
  deriving DecidableEq, Repr

/-- An item of the old tree whose bytes, and those it depends on, no edit touches. -/
structure OldItem where
  item : Item
  /-- Where it stood. -/
  oldStart : Nat
  /-- Where the edits have moved it. -/
  newStart : Nat
  /-- The old tokens, from the item on, that its reading looked at. -/
  examined : List Token
  deriving Repr

/-- What may be taken over. -/
structure Reuse where
  tokens : List OldToken
  items : List OldItem
  deriving Repr

namespace Reuse

def none : Reuse := ⟨[], []⟩

def within (n : Nat) : List Token → List Token
  | [] => []
  | t :: ts => if n = 0 then [] else t :: within (n - t.size) ts

/-- The tokens, from `start` on, that edits do not touch. -/
def untouchedTokens (edits : EditSet) (start : Nat) : List Token → List OldToken
  | [] => []
  | t :: ts =>
    let later := untouchedTokens edits (start + t.size) ts
    if edits.touches (.sized start t.size) then later
    else
      match edits.mapOffset start with
      | some moved => ⟨t, start, moved⟩ :: later
      | .none => later

/-- The items, from `start` on, that edits do not touch. -/
def untouchedItems (edits : EditSet) (start : Nat) : List Part → List OldItem
  | [] => []
  | .trivia t :: ps => untouchedItems edits (start + t.size) ps
  | .item i :: ps =>
    let later := untouchedItems edits (start + i.size) ps
    if edits.touches (.sized start i.reach) then later
    else
      match edits.mapOffset start with
      | some moved => ⟨i, start, moved, within i.reach (Part.tokensOf (.item i :: ps))⟩ :: later
      | .none => later

/-- What edits leave of a tree. -/
def ofEdits (tree : SyntaxTree) (edits : EditSet) : Reuse :=
  ⟨untouchedTokens edits 0 tree.tokens, untouchedItems edits 0 tree.parts⟩

/-- The report on a token at `start`, if it is one of the old tokens. -/
def tokenAt? (reuse : Reuse) (start : Nat) (t : Token) : Option Reused :=
  match reuse.tokens.find? fun old => old.newStart = start with
  | some old =>
    if old.token = t then
      some ⟨.token t.kind, .sized old.oldStart t.size, .sized start t.size⟩
    else .none
  | .none => .none

def tokensAt (reuse : Reuse) (start : Nat) : List Token → List Reused
  | [] => []
  | t :: ts => (reuse.tokenAt? start t).toList ++ reuse.tokensAt (start + t.size) ts

/-- The old item that may stand at `start`, where the new tokens `ts` begin: all old tokens that
its reading looked at have to be there again. -/
def itemAt? (reuse : Reuse) (start : Nat) (ts : List Token) : Option OldItem :=
  match reuse.items.find? fun old => old.newStart = start with
  | some old => if old.examined.isPrefixOf ts then some old else .none
  | .none => .none

end Reuse

def OldItem.report (old : OldItem) (start : Nat) : Reused :=
  ⟨.node old.item.kind, .sized old.oldStart old.item.size, .sized start old.item.size⟩

end IncrementalSyntax
