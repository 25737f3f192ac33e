import Iridium.Proc.Effect

/-!
# Spawning from a file

`_spawn` links the new process, and takes a PID and a frame for it, before it looks for
the file. The loader answers `0` when there is no file or when it is not an acceptable image,
and `_spawn` stores that as the program counter. So what `_initrd_spawn` does about a path
that cannot be spawned is what it does about any other: only a caller that asks for permissions
it may not give gets an error.
-/

namespace Iridium

section Spawn

variable {k : Kernel} {path : List UInt8} {permissions : PPERM_T} {uses_console : UInt8}

end Spawn

end Iridium
