import Reprieve.Analysis
import Reprieve.Datum
import Reprieve.SortedMap

/-! Counts over a list of verdicts. A member counts as used by the rule that its
verdict names; one without a rule counts as unused. -/
namespace Reprieve

structure Summary where
  total : Nat := 0
  used : Nat := 0
  unused : Nat := 0
  unresolved : Nat := 0
  byRule : SortedMap String Nat := .empty

def MemberVerdict.rule? (v : MemberVerdict) : Option String :=
  if v.verdict.used then v.verdict.rule else none

namespace Summary

def count (s : Summary) (v : MemberVerdict) : Summary :=
  let s := { s with
    total := s.total + 1
    unresolved := s.unresolved + if v.resolved then 0 else 1 }
  match v.rule? with
  | some rule =>
    { s with
      used := s.used + 1
      byRule := s.byRule.insert rule ((s.byRule.get? rule).getD 0 + 1) }
  | none => { s with unused := s.unused + 1 }

def ofVerdicts (vs : List MemberVerdict) : Summary := vs.foldl count {}

def toDatum (s : Summary) : Datum :=
  .fields [("total", .int s.total), ("used", .int s.used), ("unused", .int s.unused),
    ("unresolved", .int s.unresolved),
    ("by_rule", .fields (s.byRule.entries.map fun e => (e.1, .int e.2)))]

end Summary
end Reprieve
