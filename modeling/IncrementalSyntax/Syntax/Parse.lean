import IncrementalSyntax.Syntax.Reuse

/-!
Trees of texts. One loop reads the tokens of a text: trivia goes to the root, an old item that may
stand at this place is taken over whole, and any other item is read. A full parse is the loop with
nothing to take over; a reparse is the same loop with what edits have left of an older tree.
-/
namespace IncrementalSyntax

/-- How many bytes a look at the next token that is not trivia covers: up to its end or, if there
is none, up to the end of the text. -/
def peekSize : List Token → Nat
  | [] => 0
  | t :: ts => if t.kind.isTrivia then t.size + peekSize ts else t.size

def Reading.item (r : Reading) : Item :=
  ⟨r.kind, r.children, if r.peeked then peekSize r.rest else 0⟩

/-- The parts that tokens from `start` on make up, each with the reports on what it took over. -/
def readParts (reuse : Reuse) (start : Nat) : List Token → List (Part × List Reused)
  | [] => []
  | t :: ts =>
    if t.kind.isTrivia then
      (.trivia t, reuse.tokensAt start [t]) :: readParts reuse (start + t.size) ts
    else
      match reuse.itemAt? start (t :: ts) with
      | some old =>
        (.item old.item, [old.report start]) ::
          readParts reuse (start + old.item.size) (ts.drop (old.item.tokens.length - 1))
      | none =>
        let reading := Reading.ofTokens t ts
        (.item reading.item, reuse.tokensAt start reading.item.tokens) ::
          readParts reuse (start + reading.item.size) reading.rest
termination_by ts => ts.length
decreasing_by
  · exact Nat.lt_succ_self _
  · rw [List.length_drop, List.length_cons]
    omega
  · have := Reading.length_rest_ofTokens_le t ts
    rw [List.length_cons]
    omega

def parse (text : Text) : SyntaxTree :=
  ⟨text, (readParts .none 0 (tokenize text)).map Prod.fst⟩

/-- The tree of a text that edits have made from the text of an older tree, and the reports on
what it took over from that tree. -/
def reparse (text : Text) (prior : SyntaxTree) (edits : EditSet) : SyntaxTree × List Reused :=
  let parts := readParts (.ofEdits prior edits) 0 (tokenize text)
  (⟨text, parts.map Prod.fst⟩, parts.flatMap Prod.snd)

/-- Whether a tree, as it is written out, is the one that a full parse gives for its text. -/
def SyntaxTree.matchesFullParse (tree : SyntaxTree) : Bool :=
  let full := parse tree.text
  tree.dump = full.dump && tree.lookahead = full.lookahead

end IncrementalSyntax
