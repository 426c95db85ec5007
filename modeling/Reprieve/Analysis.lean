import Reprieve.Candidate
import Reprieve.Class.Index
import Reprieve.Provider

/-! Verdicts for the members of an index, or for the findings of a list. A finding
that the index does not know keeps its spelling and stays unused. -/
namespace Reprieve

structure MemberVerdict where
  className : String
  kind : Option ClassKind
  method : String
  isConstructor : Bool
  resolved : Bool
  verdict : Verdict
  deriving DecidableEq, Repr

namespace MemberVerdict

def ofMember (m : Member) (v : Verdict) : MemberVerdict :=
  ⟨m.owner.name.declared, some m.owner.kind, m.method.name, m.method.isConstructor, true, v⟩

def unresolved (c : Candidate) : MemberVerdict :=
  ⟨c.className, none, c.method, false, false, .unused⟩

def isUsed (v : MemberVerdict) : Bool := v.verdict.used

def display (v : MemberVerdict) : String := v.className ++ "::" ++ v.method

end MemberVerdict

namespace Registry

def judge (r : Registry) (m : Member) : MemberVerdict := .ofMember m (r.verdict m)

def analyzeClass (r : Registry) (c : Descriptor) : List MemberVerdict := c.members.map r.judge

def analyzeAll (r : Registry) (ix : Index) : List MemberVerdict :=
  ix.classes.flatMap r.analyzeClass

def analyzeCandidate (r : Registry) (ix : Index) (c : Candidate) : MemberVerdict :=
  match ix.member? c.className c.method with
  | some m => r.judge m
  | none => .unresolved c

def analyzeCandidates (r : Registry) (ix : Index) (cs : List Candidate) : List MemberVerdict :=
  cs.map (r.analyzeCandidate ix)

def analyze (r : Registry) (ix : Index) : Option (List Candidate) → List MemberVerdict
  | none => r.analyzeAll ix
  | some cs => r.analyzeCandidates ix cs

end Registry
end Reprieve
