import P16.Extension.Cpu
import P16.Extension.Display
import P16.Extension.Drivers
import P16.Extension.Memory

/-!
# The bundled extensions
-/

namespace P16.Registry

def bundled : Registry :=
  (((empty.insert "mem" Memory.extension).insert "dev.cpu" Cpu.extension).insert "dev.display"
    Display.extension).insert "dev.drivers" Drivers.extension

end P16.Registry
