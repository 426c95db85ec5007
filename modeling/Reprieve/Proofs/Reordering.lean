import Reprieve.Doctrine
import Reprieve.Proofs.Indexing
import Reprieve.Proofs.Tallies

/-! Snapshots whose class records stand in another order. A record is found by its key,
wherever it stands, so every class is resolved alike and its block of verdicts moves with
its record. -/
namespace Reprieve

namespace Lineage
variable {rs rs' : List ClassRecord}

theorem distinct_perm (h : rs.Perm rs') : Distinct rs ↔ Distinct rs' := by
  have hkeys : (rs.map fun r => ClassName.keyOf r.name).Perm
      (rs'.map fun r => ClassName.keyOf r.name) := h.map _
  exact hkeys.nodup_iff

namespace Distinct
variable (hd : Distinct rs) (h : rs.Perm rs')
include hd h

theorem find?_perm (key : String) : find? rs' key = find? rs key := by
  refine Option.ext fun r => ?_
  rw [hd.find?_eq_some_iff, ((distinct_perm h).1 hd).find?_eq_some_iff, h.mem_iff]

theorem parent?_perm (key : String) : parent? rs' key = parent? rs key := by
  rw [parent?, parent?, hd.find?_perm h]

theorem declaredBy_perm (key : String) : declaredBy rs' key = declaredBy rs key := by
  rw [declaredBy, declaredBy, hd.find?_perm h]

theorem ancestors_perm (r : ClassRecord) : ancestors rs' r = ancestors rs r :=
  climb_congr (hd.parent?_perm h) _ _

theorem declared_perm (r : ClassRecord) : declared rs' r = declared rs r := by
  have hby := funext fun a : ClassName => hd.declaredBy_perm h a.key
  rw [declared, declared, hd.ancestors_perm h]
  exact congrArg (fun f => r.interfaces ++ (ancestors rs r).flatMap f) hby

theorem interfaces_perm (r : ClassRecord) : interfaces rs' r = interfaces rs r := by
  rw [interfaces, interfaces, hd.declared_perm h, spread_congr (hd.declaredBy_perm h)]

theorem resolve_perm (r : ClassRecord) : Descriptor.resolve rs' r = Descriptor.resolve rs r := by
  rw [Descriptor.resolve, Descriptor.resolve, hd.interfaces_perm h, hd.ancestors_perm h]

end Distinct
end Lineage

namespace Index
variable {s s' : Snapshot} {ix ix' : Index}

theorem Of.class?_perm (ho : Of s ix) (ho' : Of s' ix') (h : s.classes.Perm s'.classes)
    (name : String) : ix'.class? name = ix.class? name := by
  refine Option.ext fun d => ?_
  simp only [ho.class?_eq_some_iff, ho'.class?_eq_some_iff, h.mem_iff,
    ho.distinct.resolve_perm h]

theorem Of.classes_perm (ho : Of s ix) (ho' : Of s' ix') (h : s.classes.Perm s'.classes) :
    ix'.classes = s'.classes.map (Descriptor.resolve s.classes) := by
  rw [ho'.classes]
  exact List.map_congr_left fun r _ => ho.distinct.resolve_perm h r

end Index

namespace Registry

theorem analyzeAll_eq_flatten (r : Registry) (ix : Index) :
    r.analyzeAll ix = (ix.classes.map r.analyzeClass).flatten :=
  List.flatMap_def

end Registry

namespace Index

/-- Of two snapshots with the same records in different orders both are refused, or both
have an index. These find the same classes, and in each analysis the blocks of verdicts
stand as the records do, and add up to the same summary. -/
theorem ofSnapshot_reordered {s s' : Snapshot} (h : s.classes.Perm s'.classes) :
    (∃ name name', ofSnapshot s = .error name ∧ ofSnapshot s' = .error name') ∨
    ∃ ix ix', ofSnapshot s = .ok ix ∧ ofSnapshot s' = .ok ix' ∧
      (∀ name, ix'.class? name = ix.class? name) ∧
      ∀ r : Registry,
        (∃ block : ClassRecord → List MemberVerdict,
          ix.classes.map r.analyzeClass = s.classes.map block ∧
          ix'.classes.map r.analyzeClass = s'.classes.map block ∧
          r.analyzeAll ix = (s.classes.map block).flatten ∧
          r.analyzeAll ix' = (s'.classes.map block).flatten) ∧
        Summary.ofVerdicts (r.analyzeAll ix') = Summary.ofVerdicts (r.analyzeAll ix) := by
  by_cases hd : Lineage.Distinct s.classes
  case neg =>
    have hd' : ¬ Lineage.Distinct s'.classes := fun hd' => hd ((Lineage.distinct_perm h).2 hd')
    obtain ⟨name, hn⟩ := (refused_iff s).2 hd
    obtain ⟨name', hn'⟩ := (refused_iff s').2 hd'
    exact .inl ⟨name, name', hn, hn'⟩
  case pos =>
    obtain ⟨ix, hix, ho⟩ := ofSnapshot_of_distinct hd
    obtain ⟨ix', hix', ho'⟩ := ofSnapshot_of_distinct ((Lineage.distinct_perm h).1 hd)
    refine .inr ⟨ix, ix', hix, hix', ho.class?_perm ho' h, fun r => ?_⟩
    have hblocks : ix.classes.map r.analyzeClass =
        s.classes.map (r.analyzeClass ∘ Descriptor.resolve s.classes) := by
      rw [ho.classes, List.map_map]
    have hblocks' : ix'.classes.map r.analyzeClass =
        s'.classes.map (r.analyzeClass ∘ Descriptor.resolve s.classes) := by
      rw [ho.classes_perm ho' h, List.map_map]
    refine ⟨⟨_, hblocks, hblocks', ?all, ?all'⟩, Summary.ofVerdicts_perm ?moved⟩
    case all => rw [r.analyzeAll_eq_flatten, hblocks]
    case all' => rw [r.analyzeAll_eq_flatten, hblocks']
    case moved =>
      rw [r.analyzeAll_eq_flatten, r.analyzeAll_eq_flatten, hblocks, hblocks']
      exact (h.symm.map _).flatten

def relooped : Snapshot := { classes := Lineage.looped.classes.reverse }

/-- Children before their parents or behind them, the classes are the same. -/
theorem looped_reordered : Lineage.looped.classes.Perm relooped.classes ∧
    ∃ ix ix', ofSnapshot Lineage.looped = .ok ix ∧ ofSnapshot relooped = .ok ix' ∧
      ix'.class? "App\\CHILD" = ix.class? "App\\CHILD" ∧
      Summary.ofVerdicts ((Doctrine.registry (some true) .modern {}).analyzeAll ix') =
        Summary.ofVerdicts ((Doctrine.registry (some true) .modern {}).analyzeAll ix) := by
  have hp : Lineage.looped.classes.Perm relooped.classes := (List.reverse_perm _).symm
  obtain ⟨name, -, he, -⟩ | ⟨ix, ix', hix, hix', hclass, hsum⟩ := ofSnapshot_reordered hp
  · obtain ⟨ix, hix, -⟩ := ofSnapshot_of_distinct Lineage.looped_distinct
    cases he.symm.trans hix
  · exact ⟨hp, ix, ix', hix, hix', hclass _, (hsum _).2⟩

end Index
end Reprieve
