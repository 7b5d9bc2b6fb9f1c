import StackDepth.Function

/-!
# Policies

What an analysis warns about, which functions it regards, and whether a return address counts. The
switches for warnings say only what is logged.
-/

namespace StackDepth

structure Policy where
  warnDynamic : Bool := true
  warnPointer : Bool := true
  warnCycle : Bool := true
  /-- Each finding is logged with its function; otherwise each kind once, without one. -/
  warnEach : Bool := true
  /-- The code that starts and ends a process is regarded, and code outside `.text`. -/
  regardStartup : Bool := true
  /-- A direct call adds its return address to the caller's size. -/
  countReturnAddress : Bool := false
  deriving DecidableEq, Repr

namespace Policy

def quiet : Policy := { warnDynamic := false, warnPointer := false, warnCycle := false }

/-- Functions that start and end a process and are no part of the program. -/
def startupNames : List String :=
  ["register_tm_clones", "deregister_tm_clones", "frame_dummy", "call_weak_fn", "abort@plt", ".plt",
    "_init", "_start", "_fini", "__libc_csu_init", "__libc_csu_fini", "__init_array_start",
    "__init_array_end", "__do_global_dtors_aux", "__do_global_dtors_aux_fini_array_entry",
    "__frame_dummy_init_array_entry", "__libc_start_main@plt", "__gmon_start__@plt"]

def isStartup (name : String) : Bool := startupNames.contains name

/-- Whether `f` is reported: its warnings, its row of the table, its branch of the tree. -/
def regards (p : Policy) (f : Function) : Bool :=
  p.regardStartup || (f.sectionName == some ".text" && !isStartup f.name)

end Policy

end StackDepth
