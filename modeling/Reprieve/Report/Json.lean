import Reprieve.Json.Write
import Reprieve.Summary

/-! The report for programs. Hidden members are left out of the list and counted
all the same. -/
namespace Reprieve

def shown (showUnused : Bool) (vs : List MemberVerdict) : List MemberVerdict :=
  vs.filter fun v => showUnused || v.isUsed

namespace JsonReport

def version : String := "1.0"

def member (v : MemberVerdict) : Datum :=
  .fields [("class", .text v.className), ("kind", .optional (.text ·.name) v.kind),
    ("method", .text v.method), ("constructor", .bool v.isConstructor),
    ("resolved", .bool v.resolved), ("used", .bool v.isUsed),
    ("provider", .optional .text v.verdict.provider), ("rule", .optional .text v.verdict.rule)]

def toDatum (showUnused : Bool) (vs : List MemberVerdict) : Datum :=
  .fields [("version", .text version), ("total_members", .int vs.length),
    ("members", .list ((shown showUnused vs).map member)),
    ("summary", (Summary.ofVerdicts vs).toDatum)]

def render (showUnused : Bool) (vs : List MemberVerdict) : String :=
  Json.pretty (toDatum showUnused vs)

end JsonReport
end Reprieve
