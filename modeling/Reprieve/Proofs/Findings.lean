import Reprieve.Doctrine
import Reprieve.Analysis
import Reprieve.Proofs.History
import Reprieve.Proofs.Rereading

/-! Members as findings. Where names are plain, every member that an index has can be
written on a line of its own, and the lines read back lead to the same members again. -/
namespace Reprieve

/-! ### Lines -/

namespace Text

/-- A text of these lines; the last one may go without an end. -/
def OfLines (text : String) (ls : List String) : Prop :=
  text = .join (ls.map (· ++ "\n")) ∨ text = "\n".intercalate ls

def Unbroken (l : List Char) : Prop := ∀ c ∈ l, isBlank c = false

instance (l : List Char) : Decidable (Unbroken l) :=
  List.decidableBAll (fun c => isBlank c = false) l

structure Word (name : String) : Prop where
  nonempty : name ≠ ""
  unbroken : Unbroken name.toList
  noColon : ':' ∉ name.toList

instance (name : String) : Decidable (Word name) :=
  decidable_of_iff (name ≠ "" ∧ Unbroken name.toList ∧ ':' ∉ name.toList)
    ⟨fun ⟨hn, hu, hc⟩ => ⟨hn, hu, hc⟩, fun ⟨hn, hu, hc⟩ => ⟨hn, hu, hc⟩⟩

theorem Unbroken.no_feed {l : List Char} (hl : Unbroken l) : '\n' ∉ l :=
  fun hn => absurd (hl _ hn) (by decide)

theorem lines_append_newline {l : List Char} (hl : Unbroken l) (r : List Char) :
    lines (l ++ '\n' :: r) = l :: lines r := by
  refine (Laid.fed hl.no_feed (fun hr => ?_) (laid_lines r)).lines_eq
  exact absurd (hl _ (List.mem_of_getLast? hr)) (by decide)

theorem OfLines.lines_eq {text : String} {ls : List String} (h : OfLines text ls)
    (hl : ∀ l ∈ ls, Unbroken l.toList ∧ l.toList ≠ []) :
    lines text.toList = ls.map String.toList := by
  cases h with
  | inl h =>
    subst h
    induction ls with
    | nil => rfl
    | cons l ls ih =>
      have hjoin : (String.join ((l :: ls).map (· ++ "\n"))).toList =
          l.toList ++ '\n' :: (String.join (ls.map (· ++ "\n"))).toList := by
        simp [String.toList_join]
      rw [hjoin, lines_append_newline (hl l List.mem_cons_self).1,
        ih fun m hm => hl m (List.mem_cons_of_mem l hm), List.map_cons]
  | inr h =>
    subst h
    induction ls with
    | nil => rfl
    | cons l ls ih =>
      cases ls with
      | nil =>
        have hlast := hl l List.mem_cons_self
        simpa using lines_last hlast.2 hlast.1.no_feed
      | cons m ls =>
        have hinter : ("\n".intercalate (l :: m :: ls)).toList =
            l.toList ++ '\n' :: ("\n".intercalate (m :: ls)).toList := by
          simp [String.toList_intercalate, List.intercalate]
        rw [hinter, lines_append_newline (hl l List.mem_cons_self).1,
          ih fun n hn => hl n (List.mem_cons_of_mem l hn)]
        rfl

end Text

/-! ### One finding -/

namespace Candidate
open Text

/-- Nothing is taken from the names in a finding when it is read. -/
structure Plain (f : Candidate) : Prop where
  className : Word f.className
  bare : f.className.toList.head? ≠ some '\\'
  noComment : f.className.toList.head? ≠ some '#'
  method : Word f.method
  noCall : ¬ ['(', ')'] <:+ f.method.toList

namespace Plain
variable {f : Candidate} (h : f.Plain)
include h

theorem unbroken_display : Unbroken f.display.toList := by
  rw [toList_display]
  intro c hc
  simp only [List.mem_append, List.mem_cons] at hc
  rcases hc with hc | rfl | rfl | hc
  · exact h.className.unbroken c hc
  · rfl
  · rfl
  · exact h.method.unbroken c hc

theorem proper : f.Proper :=
  ⟨h.className.nonempty, h.bare, h.method.nonempty, h.method.unbroken, h.noCall,
    fun hs => h.method.noColon (hs.subset List.mem_cons_self),
    fun hc => h.method.noColon (List.mem_of_mem_head? hc)⟩

theorem not_indented : ¬ f.Indented := by
  rintro ⟨c, hc, hb⟩
  cases hb.symm.trans (h.className.unbroken c (List.mem_of_mem_head? hc))

theorem relevant_display : Relevant f.display.toList :=
  (h.proper.relevant_display_iff h.not_indented).2 h.noComment

theorem parse?_display : parse? f.display = some f :=
  h.proper.parse?_display_iff.2 h.not_indented

end Plain

theorem parseAll_ofLines {fs : List Candidate} (h : ∀ f ∈ fs, f.Plain) {text : String}
    (ht : OfLines text (fs.map display)) : parseAll text = .ok fs := by
  have hl : ∀ l ∈ fs.map display, Unbroken l.toList ∧ l.toList ≠ [] := by
    intro l hl
    obtain ⟨f, hf, rfl⟩ := List.mem_map.1 hl
    exact ⟨(h f hf).unbroken_display, f.display_ne_nil⟩
  have hrel : ∀ l ∈ (fs.map display).map String.toList, Relevant l := by
    intro l hl
    obtain ⟨f, hf, rfl⟩ := List.mem_map.1 (List.map_map ▸ hl)
    exact (h f hf).relevant_display
  rw [parseAll, ht.lines_eq hl, parseLines_eq_ok_iff,
    List.filter_eq_self.2 fun l hl => by simpa using hrel l hl, List.map_map,
    List.forall₂_map_left_iff, List.forall₂_same]
  intro f hf
  rw [Function.comp_apply, String.ofList_toList]
  exact (h f hf).parse?_display

end Candidate

/-! ### The members of an index -/

/-- A class whose members can be written on lines and told apart there. -/
structure Descriptor.Listable (c : Descriptor) : Prop where
  name : Text.Word c.name.declared
  noComment : c.name.declared.toList.head? ≠ some '#'
  methods : ∀ m ∈ c.methods, Text.Word m.name ∧ ¬ ['(', ')'] <:+ m.name.toList
  distinct : (c.methods.map (·.name)).Nodup

namespace Descriptor.Listable
variable {c : Descriptor} (h : c.Listable) {m : Method} (hm : m ∈ c.methods)
include h hm

theorem plain : Candidate.Plain ⟨c.name.declared, m.name⟩ :=
  ⟨h.name, c.name.bare, h.noComment, (h.methods m hm).1, (h.methods m hm).2⟩

theorem firstNamed : c.FirstNamed m.name m := by
  obtain ⟨l, s, hs⟩ := List.append_of_mem hm
  have hd := h.distinct
  rw [hs, List.map_append, List.nodup_append] at hd
  exact ⟨l, s, hs, rfl, fun q hq => hd.2.2 _ (List.mem_map_of_mem hq) _ List.mem_cons_self⟩

end Descriptor.Listable

def MemberVerdict.finding (v : MemberVerdict) : Candidate := ⟨v.className, v.method⟩

namespace Registry
variable (r : Registry) {ix : Index}

theorem mem_analyzeAll_iff (v : MemberVerdict) :
    v ∈ r.analyzeAll ix ↔ ∃ c ∈ ix.classes, ∃ m ∈ c.methods, r.judge ⟨c, m⟩ = v := by
  simp [analyzeAll, analyzeClass, Descriptor.members]

theorem analyzeCandidate_of_mem (hix : ix.Aligned) {c : Descriptor} (hc : c ∈ ix.classes)
    (hl : c.Listable) {m : Method} (hm : m ∈ c.methods) :
    r.analyzeCandidate ix ⟨c.name.declared, m.name⟩ = r.judge ⟨c, m⟩ := by
  have hmember : ix.member? c.name.declared m.name = some ⟨c, m⟩ :=
    (hix.member?_eq_some_iff _ _ _).2
      ⟨hc, (ClassName.keyOf_declared c.name).symm, hl.firstNamed hm⟩
  rw [analyzeCandidate, hmember]

/-- The members of an index, listed one a line, are read as findings of the same members,
and the verdicts on the findings are the verdicts on the members. -/
theorem listed_members_fare_alike {cs : List Descriptor} (hf : Index.Filled ix cs)
    (hl : ∀ c ∈ ix.classes, c.Listable) {text : String}
    (ht : Text.OfLines text ((r.analyzeAll ix).map (·.display))) :
    ∃ fs, Candidate.parseAll text = .ok fs ∧ r.analyzeCandidates ix fs = r.analyzeAll ix := by
  have hplain : ∀ f ∈ (r.analyzeAll ix).map MemberVerdict.finding, f.Plain := by
    intro f hf
    obtain ⟨v, hv, rfl⟩ := List.mem_map.1 hf
    obtain ⟨c, hc, m, hm, rfl⟩ := (r.mem_analyzeAll_iff v).1 hv
    exact (hl c hc).plain hm
  have hlines : Text.OfLines text
      (((r.analyzeAll ix).map MemberVerdict.finding).map Candidate.display) := by
    rw [List.map_map]
    exact ht
  refine ⟨_, Candidate.parseAll_ofLines hplain hlines, ?_⟩
  rw [analyzeCandidates, List.map_map]
  refine (List.map_congr_left fun v hv => ?_).trans (List.map_id _)
  obtain ⟨c, hc, m, hm, rfl⟩ := (r.mem_analyzeAll_iff v).1 hv
  exact r.analyzeCandidate_of_mem hf.holds.aligned hc (hl c hc) hm

def post : Descriptor :=
  { name := .ofText "\\App\\Post", kind := .trait
    methods := [⟨"postLoad", false, []⟩, ⟨"(x)y", true, []⟩] }

def empty : Descriptor := { name := .ofText "App\\Empty" }

theorem post_listable : post.Listable := by
  refine ⟨by decide, by decide, fun m hm => ?_, by decide⟩
  rcases List.mem_pair.1 hm with rfl | rfl <;> decide

theorem empty_listable : empty.Listable :=
  ⟨by decide, by decide, nofun, by decide⟩

/-- Of two classes one has members, and one of these is used. -/
theorem post_members_listed :
    Index.Filled (.ofClasses [post, empty]) [post, empty] ∧
    (∀ c ∈ (Index.ofClasses [post, empty]).classes, c.Listable) ∧
    ∃ fs, Candidate.parseAll "App\\Post::postLoad\nApp\\Post::(x)y" = .ok fs ∧
      (Doctrine.registry (some true) .legacy {}).analyzeCandidates (.ofClasses [post, empty]) fs =
        (Doctrine.registry (some true) .legacy {}).analyzeAll (.ofClasses [post, empty]) := by
  have hf := Index.Filled.collected [post, empty]
  have hl : ∀ c ∈ (Index.ofClasses [post, empty]).classes, c.Listable := by
    intro c hc
    rcases List.mem_pair.1 hc with rfl | rfl
    · exact post_listable
    · exact empty_listable
  exact ⟨hf, hl, listed_members_fare_alike _ hf hl (.inr (by decide))⟩

end Registry

end Reprieve
