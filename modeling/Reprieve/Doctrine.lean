import Reprieve.Packages
import Reprieve.Provider
import Reprieve.Version

/-! The provider for Doctrine: the conventions by which its object mapper and its
bundle call methods that nobody else calls. -/
namespace Reprieve.Doctrine

def eventSubscriber : String := "Doctrine\\Common\\EventSubscriber"
def entityRepository : String := "Doctrine\\ORM\\EntityRepository"
def asEntityListener : String := "Doctrine\\Bundle\\DoctrineBundle\\Attribute\\AsEntityListener"

def lifecycleTags : List String :=
  ["PostLoad", "PostPersist", "PostUpdate", "PostRemove", "PreFlush", "PrePersist", "PreRemove",
    "PreUpdate"].map ("Doctrine\\ORM\\Mapping\\" ++ ·)

/-- The events of the object mapper, which are the names of the methods that listen. -/
def eventMethods : List String :=
  ["preRemove", "postRemove", "prePersist", "postPersist", "preUpdate", "postUpdate", "postLoad",
    "loadClassMetadata", "onClassMetadataNotFound", "preFlush", "onFlush", "postFlush", "onClear"]

def packages : List String := ["doctrine/orm", "doctrine/event-manager", "doctrine/doctrine-bundle"]

/-- A subscriber lists its events in code that is not seen here, so all its methods count. -/
def eventSubscriberRule : Rule :=
  ⟨"event-subscriber", fun m => m.owner.implements eventSubscriber⟩

def lifecycleCallbackRule (caps : Capabilities) : Rule :=
  ⟨"lifecycle-callback", fun m => caps.declarativeMetadata && lifecycleTags.any m.method.hasTag⟩

def repositoryConstructorRule : Rule :=
  ⟨"repository-constructor",
    fun m => m.method.isConstructor && m.owner.isSubclassOf entityRepository⟩

def listenerMethod? (t : Tag) : Option String :=
  (t.arguments.lookup "method" 1).bind Tag.Value.text?

def entityListenerRule (caps : Capabilities) : Rule :=
  ⟨"entity-listener", fun m => caps.declarativeMetadata &&
    (m.owner.tagsNamed asEntityListener).any fun t => listenerMethod? t == some m.method.name⟩

/-- Listeners may be wired in files that are not seen here, so the name alone counts. -/
def listenerNamingRule : Rule :=
  ⟨"listener-naming", fun m => eventMethods.contains m.method.name⟩

def rules (caps : Capabilities) : RuleSet :=
  ⟨[eventSubscriberRule, lifecycleCallbackRule caps, repositoryConstructorRule,
    entityListenerRule caps, listenerNamingRule]⟩

def name : String := "doctrine"

/-- What the settings leave open the installed packages decide. -/
def isEnabled (setting : Option Bool) (installed : Packages) : Bool :=
  setting.getD (packages.any installed.isInstalled)

def verdict (enabled : Bool) (caps : Capabilities) (m : Member) : Verdict :=
  if enabled then
    match (rules caps).firstMatch m with
    | some rule => .usedBy name rule
    | none => .unused
  else .unused

def provider (setting : Option Bool) (caps : Capabilities) (installed : Packages) : Provider :=
  let enabled := isEnabled setting installed
  ⟨name, enabled, verdict enabled caps⟩

def registry (setting : Option Bool) (caps : Capabilities) (installed : Packages) : Registry :=
  ⟨[provider setting caps installed]⟩

end Reprieve.Doctrine
