import Mathlib.Logic.Function.Basic

/-!
# The flags of a clone (`include/uapi/linux/sched.h`)

The flags say what a new task shares with the one that makes it. Some
combinations are refused before anything is copied.
-/

namespace MyOS2.Fork

abbrev CloneFlags := BitVec 64

def cloneVm : CloneFlags := 0x00000100#64
def cloneFs : CloneFlags := 0x00000200#64
def cloneFiles : CloneFlags := 0x00000400#64
def cloneSighand : CloneFlags := 0x00000800#64
def clonePidfd : CloneFlags := 0x00001000#64
def cloneParent : CloneFlags := 0x00008000#64
def cloneThread : CloneFlags := 0x00010000#64
def cloneNewns : CloneFlags := 0x00020000#64
def cloneParentSettid : CloneFlags := 0x00100000#64
def cloneDetached : CloneFlags := 0x00400000#64
def cloneNewuser : CloneFlags := 0x10000000#64
def cloneNewpid : CloneFlags := 0x20000000#64

def CloneFlags.has (flags mask : CloneFlags) : Bool := (flags &&& mask) != 0#64

def CloneFlags.hasAll (flags mask : CloneFlags) : Bool := (flags &&& mask) == mask

def einval : Int := 22

/-- The checks `copy_process` (`fork.c:866-1432`) starts with: are the flags refused? `unkillable`
is the flag of the caller's signal structure, `otherPidNs` that its children go to a pid namespace
of their own. -/
def flagsRefused (flags : CloneFlags) (unkillable otherPidNs : Bool) : Bool :=
  flags.hasAll (cloneNewns ||| cloneFs) ||
  flags.hasAll (cloneNewuser ||| cloneFs) ||
  (flags.has cloneThread && !flags.has cloneSighand) ||
  (flags.has cloneSighand && !flags.has cloneVm) ||
  (flags.has cloneParent && unkillable) ||
  (flags.has cloneThread && (flags.has (cloneNewuser ||| cloneNewpid) || otherPidNs)) ||
  (flags.has clonePidfd && flags.has (cloneDetached ||| cloneThread))

end MyOS2.Fork
