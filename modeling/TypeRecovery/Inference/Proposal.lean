import TypeRecovery.Graph.Basic

/- Proposals: the types that one attempt would give to sites, in the order in which they were first
   asked for. Nothing is written to the graph before the proposal is committed. -/
namespace TypeRecovery.Inference

/-- Each entry is a site with its proposed type; none stands for a type that was taken back. -/
structure Proposal where
  entries : List (SiteId × Option Ty) := []
deriving DecidableEq, Repr, Inhabited

namespace Proposal

/-- The type proposed for a site. -/
def find? (p : Proposal) (s : SiteId) : Option Ty := (List.lookup s p.entries).join

def isOpen (p : Proposal) (s : SiteId) : Bool := (p.find? s).isNone

/-- Sets the entry of a site, at its old place if it has one. -/
def set (s : SiteId) (t : Option Ty) : List (SiteId × Option Ty) → List (SiteId × Option Ty)
  | [] => [(s, t)]
  | e :: es => if e.1 = s then (s, t) :: es else e :: set s t es

def request (p : Proposal) (s : SiteId) (t : Ty) : Proposal := ⟨set s (some t) p.entries⟩

/-- Takes back what was proposed for a site. -/
def rollback (p : Proposal) (s : SiteId) : Proposal :=
  ⟨p.entries.map fun e => if e.1 = s then (s, none) else e⟩

/-- The type of a site if the proposal were in force. -/
def typeAt (p : Proposal) (g : MethodGraph) (s : SiteId) : Ty := (p.find? s).getD (g.typeAt s)

/-- How many sites were asked, those taken back included. -/
def size (p : Proposal) : Nat := p.entries.length

/-- Nothing is proposed. -/
def isEmpty (p : Proposal) : Bool := p.entries.all (·.2.isNone)

/-- Writes the proposed types, in order. -/
def commit (p : Proposal) (g : MethodGraph) : MethodGraph :=
  p.entries.foldl (fun g e => if e.2.isSome then g.setType e.1 e.2 else g) g

end Proposal

end TypeRecovery.Inference
