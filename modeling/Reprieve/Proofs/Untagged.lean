import Reprieve.Analysis
import Reprieve.Proofs.Descriptor
import Reprieve.Proofs.Hierarchy

/-! A snapshot without its tags. The walks and the index read no tag, so taking the tags
off first or last makes no difference, and an analysis whose verdicts read no tag either
answers the same with and without them. -/
namespace Reprieve

def MethodRecord.untagged (m : MethodRecord) : MethodRecord := { m with tags := [] }

def ClassRecord.untagged (r : ClassRecord) : ClassRecord :=
  { r with tags := [], methods := r.methods.map MethodRecord.untagged }

def Snapshot.untagged (s : Snapshot) : Snapshot :=
  { s with classes := s.classes.map ClassRecord.untagged }

def Method.untagged (m : Method) : Method := { m with tags := [] }

def Descriptor.untagged (c : Descriptor) : Descriptor :=
  { c with tags := [], methods := c.methods.map Method.untagged }

def Member.untagged (m : Member) : Member := ⟨m.owner.untagged, m.method.untagged⟩

def Index.untagged (ix : Index) : Index :=
  { ix with classes := ix.classes.map Descriptor.untagged }

/-! ### The walks -/

namespace Lineage
variable (rs : List ClassRecord)

theorem find?_untagged (key : String) :
    find? (rs.map ClassRecord.untagged) key = (find? rs key).map ClassRecord.untagged := by
  rw [find?, find?, List.find?_map]
  rfl

theorem parent?_untagged (key : String) :
    parent? (rs.map ClassRecord.untagged) key = parent? rs key := by
  rw [parent?, parent?, find?_untagged]
  cases find? rs key <;> rfl

theorem declaredBy_untagged (key : String) :
    declaredBy (rs.map ClassRecord.untagged) key = declaredBy rs key := by
  rw [declaredBy, declaredBy, find?_untagged]
  cases find? rs key <;> rfl

theorem ancestors_untagged (r : ClassRecord) :
    ancestors (rs.map ClassRecord.untagged) r.untagged = ancestors rs r :=
  climb_congr (parent?_untagged rs) [ClassName.keyOf r.name] r.parent

theorem declared_untagged (r : ClassRecord) :
    declared (rs.map ClassRecord.untagged) r.untagged = declared rs r := by
  have hby := funext fun a : ClassName => declaredBy_untagged rs a.key
  rw [declared, declared, ancestors_untagged]
  exact congrArg (fun f => r.interfaces ++ (ancestors rs r).flatMap f) hby

theorem interfaces_untagged (r : ClassRecord) :
    interfaces (rs.map ClassRecord.untagged) r.untagged = interfaces rs r := by
  rw [interfaces, interfaces, declared_untagged, spread_congr (declaredBy_untagged rs)]

end Lineage

/-! ### Classes and their index -/

namespace Descriptor

theorem addInterface_untagged (c : Descriptor) (i : ClassName) :
    c.untagged.addInterface i = (c.addInterface i).untagged := by
  have hi : c.untagged.interfaces = c.interfaces := rfl
  rw [addInterface, addInterface, hi]
  split <;> rfl

theorem foldl_addInterface_untagged (is : List ClassName) (c : Descriptor) :
    is.foldl addInterface c.untagged = (is.foldl addInterface c).untagged :=
  List.foldl_hom untagged addInterface_untagged

theorem resolve_untagged (rs : List ClassRecord) (r : ClassRecord) :
    resolve (rs.map ClassRecord.untagged) r.untagged = (resolve rs r).untagged := by
  have hm : r.untagged.methods.map Method.ofRecord =
      (r.methods.map Method.ofRecord).map Method.untagged := by
    simp only [ClassRecord.untagged, List.map_map]
    rfl
  rw [resolve, resolve, ← foldl_addInterface_untagged, Lineage.interfaces_untagged,
    Lineage.ancestors_untagged, hm]
  rfl

theorem member?_untagged (c : Descriptor) (name : String) :
    c.untagged.member? name = (c.member? name).map Member.untagged := by
  simp only [member?, untagged, List.find?_map, Option.map_map]
  rfl

theorem members_untagged (c : Descriptor) : c.untagged.members = c.members.map Member.untagged := by
  simp only [members, untagged, List.map_map]
  rfl

end Descriptor

namespace Index

theorem insert_untagged (ix : Index) (c : Descriptor) :
    ix.untagged.insert c.untagged = (ix.insert c).untagged := by
  have hs : ix.untagged.slot? c.untagged.name.key = ix.slot? c.name.key := rfl
  rw [insert, insert, hs]
  cases ix.slot? c.name.key with
  | none => simp [untagged, Descriptor.untagged]
  | some i => simp [untagged, List.map_set]

theorem ofClasses_untagged (cs : List Descriptor) :
    ofClasses (cs.map Descriptor.untagged) = (ofClasses cs).untagged := by
  have hfold (ix : Index) : (cs.map Descriptor.untagged).foldl insert ix.untagged =
      (cs.foldl insert ix).untagged := by
    induction cs generalizing ix with
    | nil => rfl
    | cons c cs ih =>
      rw [List.map_cons, List.foldl_cons, List.foldl_cons, insert_untagged, ih]
  exact hfold {}

theorem repeated?_untagged (seen : List String) (rs : List ClassRecord) :
    repeated? seen (rs.map ClassRecord.untagged) =
      (repeated? seen rs).map ClassRecord.untagged := by
  induction rs generalizing seen with
  | nil => rfl
  | cons r rs ih =>
    have hr : r.untagged.name = r.name := rfl
    simp only [List.map_cons, repeated?, hr, ih]
    split <;> rfl

/-- Without its tags a snapshot is refused with the same name or has the same index, the
tags taken off. -/
theorem ofSnapshot_untagged (s : Snapshot) :
    ofSnapshot s.untagged = (ofSnapshot s).map untagged := by
  have hr := repeated?_untagged [] s.classes
  have hc : s.untagged.classes = s.classes.map ClassRecord.untagged := rfl
  rw [ofSnapshot, ofSnapshot, hc, hr]
  cases repeated? [] s.classes with
  | some r => rfl
  | none =>
    have hm : (s.classes.map ClassRecord.untagged).map
        (Descriptor.resolve (s.classes.map ClassRecord.untagged)) =
        (s.classes.map (Descriptor.resolve s.classes)).map Descriptor.untagged := by
      simp only [List.map_map]
      exact List.map_congr_left fun r _ => Descriptor.resolve_untagged s.classes r
    simp only [Option.map_none, hm, ofClasses_untagged]
    rfl

theorem class?_untagged (ix : Index) (name : String) :
    ix.untagged.class? name = (ix.class? name).map Descriptor.untagged := by
  have hs : ix.untagged.slot? (ClassName.keyOf name) = ix.slot? (ClassName.keyOf name) := rfl
  rw [class?, class?, hs]
  cases ix.slot? (ClassName.keyOf name) with
  | none => rfl
  | some i => simp [untagged]

theorem member?_untagged (ix : Index) (name method : String) :
    ix.untagged.member? name method = (ix.member? name method).map Member.untagged := by
  rw [Index.member?, Index.member?, class?_untagged]
  cases ix.class? name with
  | none => rfl
  | some c => exact c.member?_untagged method

end Index

/-! ### An analysis that reads no tag -/

namespace Registry

def TagBlind (r : Registry) : Prop := ∀ m : Member, r.verdict m.untagged = r.verdict m

theorem TagBlind.judge_untagged {r : Registry} (h : r.TagBlind) (m : Member) :
    r.judge m.untagged = r.judge m := by
  rw [judge, judge, h m]
  rfl

theorem TagBlind.analyzeClass_untagged {r : Registry} (h : r.TagBlind) (c : Descriptor) :
    r.analyzeClass c.untagged = r.analyzeClass c := by
  rw [analyzeClass, analyzeClass, Descriptor.members_untagged, List.map_map]
  exact List.map_congr_left fun m _ => h.judge_untagged m

theorem TagBlind.analyzeCandidate_untagged {r : Registry} (h : r.TagBlind) (ix : Index)
    (c : Candidate) : r.analyzeCandidate ix.untagged c = r.analyzeCandidate ix c := by
  rw [analyzeCandidate, analyzeCandidate, Index.member?_untagged]
  cases ix.member? c.className c.method with
  | none => rfl
  | some m => exact h.judge_untagged m

/-- For all members of an index, and for every list of findings. -/
theorem TagBlind.analyze_untagged {r : Registry} (h : r.TagBlind) (ix : Index)
    (cs : Option (List Candidate)) : r.analyze ix.untagged cs = r.analyze ix cs := by
  cases cs with
  | none =>
    simp only [analyze, analyzeAll, Index.untagged, List.flatMap_map]
    exact congrArg (ix.classes.flatMap ·) (funext h.analyzeClass_untagged)
  | some cs =>
    exact List.map_congr_left fun c _ => h.analyzeCandidate_untagged ix c

end Registry
end Reprieve
