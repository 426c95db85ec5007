import Reprieve.Doctrine
import Reprieve.Proofs.Indexing
import Reprieve.Proofs.Interfaces
import Reprieve.Proofs.Rules

/-! The conventions by which Doctrine calls a method, said of the records alone, and
the verdict on the method: it is used exactly when a convention holds, and the first
that holds is reported. -/
namespace Reprieve.Doctrine
open Lineage
open Relation (TransGen)

/-! ### The conventions, as the records say -/

def Subscribes (rs : List ClassRecord) (c : ClassRecord) : Prop :=
  Implements rs (ClassName.keyOf c.name) (ClassName.keyOf eventSubscriber)

def CallsBack (caps : Capabilities) (m : MethodRecord) : Prop :=
  caps.declarativeMetadata = true ∧
    ∃ t ∈ m.tags, ∃ l ∈ lifecycleTags, t.name.key = ClassName.keyOf l

def Constructs (m : MethodRecord) : Prop :=
  m.constructor = some true ∨ m.constructor = none ∧ m.name.folded = "__construct"

def ConstructsRepository (rs : List ClassRecord) (c : ClassRecord) (m : MethodRecord) : Prop :=
  Constructs m ∧ ClassName.keyOf entityRepository ≠ ClassName.keyOf c.name ∧
    TransGen (Parent rs) (ClassName.keyOf c.name) (ClassName.keyOf entityRepository)

/-- The named argument is the text, or it is missing or null and the second positional
argument is the text. Any other named argument hides the positional one. -/
def NamesListener (t : Tag) (method : String) : Prop :=
  t.arguments.named? "method" = some (.text method) ∨
    (t.arguments.named? "method" = none ∨ t.arguments.named? "method" = some .null) ∧
      t.arguments.at? 1 = some (.text method)

def Listens (caps : Capabilities) (c : ClassRecord) (m : MethodRecord) : Prop :=
  caps.declarativeMetadata = true ∧
    ∃ t ∈ c.tags, t.name.key = ClassName.keyOf asEntityListener ∧ NamesListener t m.name

def NamedForEvent (m : MethodRecord) : Prop := m.name ∈ eventMethods

/-- In the order in which they are reported. -/
def conventions (caps : Capabilities) (rs : List ClassRecord) (c : ClassRecord)
    (m : MethodRecord) : List (String × Prop) :=
  [("event-subscriber", Subscribes rs c), ("lifecycle-callback", CallsBack caps m),
    ("repository-constructor", ConstructsRepository rs c m),
    ("entity-listener", Listens caps c m), ("listener-naming", NamedForEvent m)]

theorem not_callsBack_of_tags_eq_nil (caps : Capabilities) {m : MethodRecord} (h : m.tags = []) :
    ¬ CallsBack caps m := by
  rintro ⟨-, t, ht, -⟩
  rw [h] at ht
  cases ht

theorem no_convention_iff (caps : Capabilities) (rs : List ClassRecord) (c : ClassRecord)
    (m : MethodRecord) : (∀ e ∈ conventions caps rs c m, ¬ e.2) ↔
      ¬ (Subscribes rs c ∨ CallsBack caps m ∨ ConstructsRepository rs c m ∨ Listens caps c m ∨
        NamedForEvent m) := by
  simp [conventions, not_or]

/-! ### Each rule decides its convention -/

theorem isConstructor_ofRecord_iff (m : MethodRecord) :
    (Method.ofRecord m).isConstructor = true ↔ Constructs m := by
  simp only [Method.ofRecord, Method.isConstructorName, Constructs]
  cases m.constructor <;> simp

theorem hasTag_iff (m : Method) (name : String) :
    m.hasTag name = true ↔ ∃ t ∈ m.tags, t.name.key = ClassName.keyOf name := by
  simp [Method.hasTag, Tag.isNamed_iff]

theorem filter_not_isNull_eq_none_iff (o : Option Tag.Value) :
    o.filter (!·.isNull) = none ↔ o = none ∨ o = some .null := by
  cases o with
  | none => simp
  | some v => cases v <;> simp [Option.filter_some, Tag.Value.isNull]

theorem text?_filter_eq_some_iff (o : Option Tag.Value) (s : String) :
    (o.filter (!·.isNull)).bind Tag.Value.text? = some s ↔ o = some (.text s) := by
  cases o with
  | none => simp
  | some v => cases v <;> simp [Option.filter_some, Tag.Value.isNull, Tag.Value.text?]

theorem listenerMethod?_eq_some_iff (t : Tag) (s : String) :
    listenerMethod? t = some s ↔ NamesListener t s := by
  rw [listenerMethod?, Tag.Arguments.lookup, NamesListener]
  by_cases hn : t.arguments.named? "method" = none ∨ t.arguments.named? "method" = some .null
  · have hs : t.arguments.named? "method" ≠ some (.text s) := by
      intro h
      simp [h] at hn
    rw [(filter_not_isNull_eq_none_iff _).2 hn, Option.none_or, text?_filter_eq_some_iff]
    simp [hn, hs]
  · have hkept : (t.arguments.named? "method").filter (!·.isNull) ≠ none :=
      (filter_not_isNull_eq_none_iff _).not.2 hn
    rw [Option.or_of_isSome (Option.isSome_iff_ne_none.2 hkept), text?_filter_eq_some_iff]
    simp [hn]

variable {rs : List ClassRecord}

theorem rules_decide (hd : Distinct rs) (caps : Capabilities) {c : ClassRecord} (hc : c ∈ rs)
    (m : MethodRecord) :
    (rules caps).Decides ⟨Descriptor.resolve rs c, Method.ofRecord m⟩
      (conventions caps rs c m) := by
  refine .cons ⟨rfl, ?subscriber⟩ (.cons ⟨rfl, ?lifecycle⟩ (.cons ⟨rfl, ?repository⟩
    (.cons ⟨rfl, ?listener⟩ (.cons ⟨rfl, ?naming⟩ .nil))))
  case subscriber => exact hd.implements_resolve_iff hc eventSubscriber
  case lifecycle =>
    simp only [lifecycleCallbackRule, Bool.and_eq_true, List.any_eq_true, hasTag_iff, CallsBack]
    refine and_congr_right fun _ => ⟨?_, ?_⟩
    · intro h
      obtain ⟨l, hl, t, ht, hk⟩ := h
      exact ⟨t, ht, l, hl, hk⟩
    · intro h
      obtain ⟨t, ht, l, hl, hk⟩ := h
      exact ⟨l, hl, t, ht, hk⟩
  case repository =>
    simp only [repositoryConstructorRule, Bool.and_eq_true, isConstructor_ofRecord_iff,
      hd.isSubclassOf_resolve_iff hc, ConstructsRepository]
  case listener =>
    simp only [entityListenerRule, Bool.and_eq_true, List.any_eq_true, Descriptor.tagsNamed,
      Descriptor.resolve_tags, List.mem_filter, Tag.isNamed_iff, beq_iff_eq,
      listenerMethod?_eq_some_iff, Listens, and_assoc]
    rfl
  case naming => simp [listenerNamingRule, NamedForEvent, Method.ofRecord]

/-! ### The verdict -/

theorem verdict_disabled {setting : Option Bool} {installed : Packages} (caps : Capabilities)
    (m : Member) (h : (provider setting caps installed).enabled = false) :
    (provider setting caps installed).verdict m = .unused := by
  have he : isEnabled setting installed = false := h
  simp [provider, verdict, he]

theorem verdict_enabled {setting : Option Bool} {installed : Packages} (caps : Capabilities)
    (m : Member) (h : (provider setting caps installed).enabled = true) :
    (provider setting caps installed).verdict m =
      (((rules caps).firstMatch m).map (Verdict.usedBy name)).getD .unused := by
  have he : isEnabled setting installed = true := h
  simp only [provider, verdict, he, if_true]
  cases (rules caps).firstMatch m <;> rfl

/-- The verdict on a method of a snapshot, from its records. A disabled provider leaves it
unused. An enabled one uses it exactly when a convention holds, and reports the first. -/
theorem verdict_iff_convention {s : Snapshot} {ix : Index} (h : Index.ofSnapshot s = .ok ix)
    (setting : Option Bool) (caps : Capabilities) (installed : Packages) {i j : Nat}
    {c : ClassRecord} {m : MethodRecord} (hc : s.classes[i]? = some c)
    (hm : c.methods[j]? = some m) :
    ∃ d x, ix.classes[i]? = some d ∧ d.members[j]? = some x ∧
      ((provider setting caps installed).enabled = false →
        (provider setting caps installed).verdict x = .unused) ∧
      ((provider setting caps installed).enabled = true →
        (((provider setting caps installed).verdict x).used = true ↔
          Subscribes s.classes c ∨ CallsBack caps m ∨ ConstructsRepository s.classes c m ∨
            Listens caps c m ∨ NamedForEvent m) ∧
        (∀ rule, (provider setting caps installed).verdict x = .usedBy "doctrine" rule ↔
          First (conventions caps s.classes c m) rule) ∧
        (((provider setting caps installed).verdict x).used = false →
          (provider setting caps installed).verdict x = .unused)) := by
  obtain ⟨hd, hcl, -⟩ := Index.of_ofSnapshot h
  have hdec := rules_decide hd caps (List.mem_of_getElem? hc) m
  refine ⟨Descriptor.resolve s.classes c, ⟨Descriptor.resolve s.classes c, Method.ofRecord m⟩,
    by simp [hcl, hc], by simp [Descriptor.members, hm], verdict_disabled caps _, fun he => ?_⟩
  rw [verdict_enabled caps _ he]
  have hnone := hdec.firstMatch_eq_none_iff
  rw [no_convention_iff] at hnone
  cases hf : (rules caps).firstMatch
      ⟨Descriptor.resolve s.classes c, Method.ofRecord m⟩ with
  | none =>
    refine ⟨⟨nofun, fun hx => absurd hx (hnone.1 hf)⟩, fun rule => ⟨nofun, fun hr => ?_⟩,
      fun _ => rfl⟩
    cases hf.symm.trans ((hdec.firstMatch_eq_some_iff rule).2 hr)
  | some n =>
    refine ⟨⟨fun _ => ?_, fun _ => rfl⟩, fun rule => ?_, nofun⟩
    · by_contra hx
      cases hf.symm.trans (hnone.2 hx)
    · rw [← hdec.firstMatch_eq_some_iff, hf]
      simp [Verdict.usedBy, name]

/-! ### Each convention at work -/

def stamp : MethodRecord :=
  { name := "stamp", tags := [{ name := .ofText "Doctrine\\ORM\\Mapping\\PrePersist" }] }

/-- A repository that is tagged as a listener too, with a method for each convention that looks
at methods and one that nobody calls. -/
def orders : ClassRecord :=
  { name := "App\\Orders"
    parent := some "Doctrine\\ORM\\EntityRepository"
    tags := [{ name := .ofText "Doctrine\\Bundle\\DoctrineBundle\\Attribute\\AsEntityListener"
               arguments := .set {} "method" (.text "record") }]
    methods := [stamp, { name := "__Construct" }, { name := "record" }, { name := "postFlush" },
      { name := "total" }] }

def listening : Snapshot := { classes := [orders] }

theorem orders_not_subscribes : ¬ Subscribes listening.classes orders := by
  rintro ⟨r, hr, -, i, hi, -⟩
  obtain rfl := List.mem_singleton.1 hr
  cases hi

theorem orders_below_repository :
    TransGen (Parent listening.classes) (ClassName.keyOf orders.name)
      (ClassName.keyOf entityRepository) :=
  .single ⟨orders, List.mem_singleton.2 rfl, _, rfl, rfl, rfl⟩

theorem orders_listens_iff (m : MethodRecord) : Listens .modern orders m ↔ m.name = "record" := by
  constructor
  · rintro ⟨-, t, ht, -, hn⟩
    obtain rfl := List.mem_singleton.1 ht
    exact (Option.some.inj ((listenerMethod?_eq_some_iff _ _).2 hn)).symm
  · intro h
    exact ⟨rfl, _, List.mem_singleton.2 rfl, ClassName.key_ofText _, .inl (by rw [h]; rfl)⟩

theorem stamp_calls_back : CallsBack .modern stamp :=
  ⟨rfl, _, List.mem_singleton.2 rfl, _, List.mem_map.2 ⟨"PrePersist", by decide, rfl⟩,
    ClassName.key_ofText _⟩

theorem orders_not_constructs {m : MethodRecord} (h : m.constructor = none)
    (hn : m.name.folded ≠ "__construct") :
    ¬ ConstructsRepository listening.classes orders m := by
  rintro ⟨hc | ⟨-, hc⟩, -⟩
  · cases h.symm.trans hc
  · exact hn hc

theorem orders_first :
    First (conventions .modern listening.classes orders stamp) "lifecycle-callback" ∧
      First (conventions .modern listening.classes orders { name := "__Construct" })
        "repository-constructor" ∧
      First (conventions .modern listening.classes orders { name := "record" })
        "entity-listener" ∧
      First (conventions .modern listening.classes orders { name := "postFlush" })
        "listener-naming" := by
  have hsub := orders_not_subscribes
  have hcall (name : String) := not_callsBack_of_tags_eq_nil .modern (m := { name }) rfl
  refine ⟨.later hsub (.here stamp_calls_back), ?constructor, ?listener, ?naming⟩
  case constructor =>
    exact .later hsub (.later (hcall _)
      (.here ⟨.inr ⟨rfl, by decide⟩, by decide, orders_below_repository⟩))
  case listener =>
    exact .later hsub (.later (hcall _) (.later (orders_not_constructs rfl (by decide))
      (.here ((orders_listens_iff _).2 rfl))))
  case naming =>
    exact .later hsub (.later (hcall _) (.later (orders_not_constructs rfl (by decide))
      (.later ((orders_listens_iff _).not.2 (by decide))
        (.here (by decide : "postFlush" ∈ eventMethods)))))

theorem orders_total_uncalled :
    ¬ (Subscribes listening.classes orders ∨ CallsBack .modern { name := "total" } ∨
      ConstructsRepository listening.classes orders { name := "total" } ∨
      Listens .modern orders { name := "total" } ∨ NamedForEvent { name := "total" }) := by
  rintro (h | h | h | h | h)
  · exact orders_not_subscribes h
  · exact not_callsBack_of_tags_eq_nil .modern rfl h
  · exact orders_not_constructs rfl (by decide) h
  · exact absurd ((orders_listens_iff _).1 h) (by decide)
  · exact absurd h (by decide : "total" ∉ eventMethods)

/-- The method of a class that subscribes through loops is used, and so is what a callback tag, a
repository, a listener tag or a name accounts for. -/
theorem looped_child_used : (∃ (ix : Index) (d : Descriptor) (x : Member),
    Index.ofSnapshot looped = .ok ix ∧ looped.classes[0]? = some child ∧
      child.methods[0]? = some { name := "run" } ∧ ix.classes[0]? = some d ∧
      d.members[0]? = some x ∧
      (provider (some true) .legacy {}).verdict x = .usedBy "doctrine" "event-subscriber") ∧
    ∃ ix : Index, Index.ofSnapshot listening = .ok ix ∧
      (∃ (d : Descriptor) (x : Member), ix.classes[0]? = some d ∧ d.members[0]? = some x ∧
        (provider (some true) .modern {}).verdict x = .usedBy "doctrine" "lifecycle-callback") ∧
      (∃ (d : Descriptor) (x : Member), ix.classes[0]? = some d ∧ d.members[1]? = some x ∧
        (provider (some true) .modern {}).verdict x = .usedBy "doctrine" "repository-constructor") ∧
      (∃ (d : Descriptor) (x : Member), ix.classes[0]? = some d ∧ d.members[2]? = some x ∧
        (provider (some true) .modern {}).verdict x = .usedBy "doctrine" "entity-listener") ∧
      (∃ (d : Descriptor) (x : Member), ix.classes[0]? = some d ∧ d.members[3]? = some x ∧
        (provider (some true) .modern {}).verdict x = .usedBy "doctrine" "listener-naming") ∧
      ∃ (d : Descriptor) (x : Member), ix.classes[0]? = some d ∧ d.members[4]? = some x ∧
        (provider (some true) .modern {}).verdict x = .unused := by
  refine ⟨?looped, ?listening⟩
  case looped =>
    obtain ⟨ix, hix, -⟩ := Index.ofSnapshot_of_distinct looped_distinct
    obtain ⟨d, x, hd, hx, -, hu⟩ := verdict_iff_convention hix (some true) .legacy {}
      (i := 0) (j := 0) (c := child) (m := { name := "run" }) rfl rfl
    exact ⟨ix, d, x, hix, rfl, rfl, hd, hx, ((hu rfl).2.1 _).2 (.here looped_child_subscribes)⟩
  case listening =>
    obtain ⟨ix, hix, -⟩ := Index.ofSnapshot_of_distinct (s := listening) (List.nodup_singleton _)
    obtain ⟨hstamp, hconstruct, hrecord, hflush⟩ := orders_first
    have hrule {j : Nat} {m : MethodRecord} {rule : String} (hm : orders.methods[j]? = some m)
        (hr : First (conventions .modern listening.classes orders m) rule) :
        ∃ (d : Descriptor) (x : Member), ix.classes[0]? = some d ∧ d.members[j]? = some x ∧
          (provider (some true) .modern {}).verdict x = .usedBy "doctrine" rule := by
      obtain ⟨d, x, hd, hx, -, hu⟩ :=
        verdict_iff_convention hix (some true) .modern {} (i := 0) (c := orders) rfl hm
      exact ⟨d, x, hd, hx, ((hu rfl).2.1 _).2 hr⟩
    refine ⟨ix, hix, hrule rfl hstamp, hrule rfl hconstruct, hrule rfl hrecord,
      hrule rfl hflush, ?_⟩
    obtain ⟨d, x, hd, hx, -, hu⟩ := verdict_iff_convention hix (some true) .modern {}
      (i := 0) (j := 4) (c := orders) (m := { name := "total" }) rfl rfl
    exact ⟨d, x, hd, hx, (hu rfl).2.2 (Bool.eq_false_iff.2 fun hused =>
      orders_total_uncalled ((hu rfl).1.1 hused))⟩

end Reprieve.Doctrine
