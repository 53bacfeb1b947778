import IncrementalSyntax.Document.Id

/-!
Numbers for URIs. A URI gets the next free number when it is first seen and keeps it for good. The
numbers are found by URI in one table and the URIs by number in another.
-/
namespace IncrementalSyntax

structure Registry where
  /-- The number of each URI seen so far, the latest first. -/
  ids : List (String × DocumentId)
  /-- The URIs seen so far, each in the place of its number. -/
  uris : List String
  deriving DecidableEq, Repr

namespace Registry

def empty : Registry := ⟨[], []⟩

def get? (r : Registry) (uri : String) : Option DocumentId := r.ids.lookup uri

/-- The document of a URI, which is entered if it is new. -/
def intern (r : Registry) (uri : String) : DocumentId × Registry :=
  match r.get? uri with
  | some d => (d, r)
  | none =>
    let d : DocumentId := ⟨r.uris.length⟩
    (d, ⟨(uri, d) :: r.ids, r.uris ++ [uri]⟩)

/-- The URI in the place of a document, whoever gave the document its number. -/
def lookup? (r : Registry) (d : DocumentId) : Option String := r.uris[d.index]?

def size (r : Registry) : Nat := r.uris.length

def isEmpty (r : Registry) : Bool := r.size == 0

def describe (r : Registry) : String := s!"UriInterner \x7b count: {r.size} \x7d"

end Registry

end IncrementalSyntax
