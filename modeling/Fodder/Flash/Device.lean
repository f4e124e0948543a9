import Fodder.Flash.Basic

/-!
# Storage device

Flash behind whatever makes its calls fail. The device keeps a journal of the calls that were meant
to change it, with what each would have written, so the contents after any number of them can be
worked out.
-/
namespace Fodder

inductive Call
  | read
  | write
  | erase
  deriving DecidableEq, Repr

/-- Decides which calls fail; every call, by its kind and key, may change what comes next. -/
class FaultSource (φ : Type) where
  next : φ → Call → String → Option StorageError × φ

/-- A sound device has nothing to decide. -/
instance : FaultSource Unit where
  next _ _ _ := (none, ())

/-- Makes calls of a kind fail, those for one key or for all, after letting some of them pass. -/
structure FaultRule where
  call : Call
  /-- The key concerned; `none` stands for all. -/
  key : Option String
  error : StorageError
  skip : Nat := 0
  deriving DecidableEq, Repr

namespace FaultRule

def concerns (rule : FaultRule) (call : Call) (key : String) : Bool :=
  rule.call = call ∧ rule.key.all (· = key)

/-- The first rule that lets no more calls pass decides; those before it let this one pass. -/
def scan (call : Call) (key : String) : List FaultRule → Option StorageError × List FaultRule
  | [] => (none, [])
  | rule :: rules =>
    if rule.concerns call key then
      match rule.skip with
      | 0 => (some rule.error, rule :: rules)
      | skip + 1 =>
        let (error, rules) := scan call key rules
        (error, { rule with skip } :: rules)
    else
      let (error, rules) := scan call key rules
      (error, rule :: rules)

end FaultRule

/-- Rules in the order in which they were added. -/
structure FaultPlan where
  rules : List FaultRule := []
  deriving DecidableEq, Repr

instance : FaultSource FaultPlan where
  next plan call key :=
    let (error, rules) := FaultRule.scan call key plan.rules
    (error, ⟨rules⟩)

inductive Change
  | write (blob : List UInt8)
  | erase
  deriving DecidableEq, Repr

structure JournalEntry where
  space : String
  key : String
  change : Change
  failed : Bool
  deriving DecidableEq, Repr

/-- The contents after a call that was journalled; a failed call changes nothing. -/
def JournalEntry.apply (flash : Flash) (entry : JournalEntry) : Flash :=
  if entry.failed then flash
  else
    match entry.change with
    | .write blob => flash.put (Flash.path entry.space entry.key) blob
    | .erase => flash.erase entry.space entry.key

structure Device (φ : Type) where
  flash : Flash := {}
  faults : φ
  /-- Newest first. -/
  journal : List JournalEntry := []
  deriving DecidableEq, Repr

/-- What can be done with a device. An error leaves it as the calls before the error made it. -/
abbrev Storage (φ : Type) := ExceptT StorageError (StateM (Device φ))

namespace Storage

variable {φ α : Type}

/-- Runs an operation on a device. -/
def on (op : Storage φ α) (device : Device φ) : Except StorageError α × Device φ :=
  op.run.run device

/-- The outcome of an operation as a value. -/
def attempt (op : Storage φ α) : Storage φ (Except StorageError α) := ExceptT.lift op.run

variable [FaultSource φ]

def read (space key : String) (room : Nat) : Storage φ (List UInt8) :=
  ExceptT.mk fun device =>
    match FaultSource.next device.faults .read key with
    | (some error, faults) => (.error error, { device with faults })
    | (none, faults) => (device.flash.read space key room, { device with faults })

def write (space key : String) (blob : List UInt8) : Storage φ Unit :=
  ExceptT.mk fun device =>
    let noted (failed : Bool) := ⟨space, key, .write blob, failed⟩ :: device.journal
    match FaultSource.next device.faults .write key with
    | (some error, faults) => (.error error, { device with faults, journal := noted true })
    | (none, faults) =>
      match device.flash.write space key blob with
      | .error error => (.error error, { device with faults, journal := noted true })
      | .ok flash => (.ok (), { flash, faults, journal := noted false })

def erase (space key : String) : Storage φ Unit :=
  ExceptT.mk fun device =>
    let noted (failed : Bool) := ⟨space, key, .erase, failed⟩ :: device.journal
    match FaultSource.next device.faults .erase key with
    | (some error, faults) => (.error error, { device with faults, journal := noted true })
    | (none, faults) =>
      (.ok (), { flash := device.flash.erase space key, faults, journal := noted false })

end Storage

end Fodder
