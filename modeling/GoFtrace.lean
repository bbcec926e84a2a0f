import GoFtrace.Bpf.Goid
import GoFtrace.Bpf.Loadable
import GoFtrace.Bpf.Meaning
import GoFtrace.Bpf.PidHelper
import GoFtrace.Bpf.Protocol
import GoFtrace.Cmd.Memory
import GoFtrace.Cmd.RoundTrip
import GoFtrace.Elf.Children
import GoFtrace.Elf.Line
import GoFtrace.Elf.Resolve
import GoFtrace.EventManager.Discard
import GoFtrace.EventManager.Isolation
import GoFtrace.EventManager.OwnArgs
import GoFtrace.EventManager.Retvals
import GoFtrace.Sampler.Recovery
import GoFtrace.Tracing.Aggregated
import GoFtrace.Tracing.Detach
import GoFtrace.Tracing.Exit
import GoFtrace.Tracing.Loop
import GoFtrace.Tracing.Nil
import GoFtrace.Tracing.Pairing
import GoFtrace.Tracing.Rebuild
import GoFtrace.Tracing.Recipes
import GoFtrace.Tracing.Refinement
import GoFtrace.Tracing.Shown
import GoFtrace.Tracing.Teardown
import GoFtrace.Tracing.Wildcard
import GoFtrace.Uprobe.Direct
import GoFtrace.Uprobe.Hidden
import GoFtrace.Uprobe.Marks
import GoFtrace.Uprobe.Serving
