namespace SourceDeps.Builtin

/-- The names of the runtime's modules, in the order of their characters. -/
def names : Array String := #[
  "_http_agent", "_http_client", "_http_common", "_http_incoming", "_http_outgoing",
  "_http_server", "_stream_duplex", "_stream_passthrough", "_stream_readable",
  "_stream_transform", "_stream_wrap", "_stream_writable", "_tls_common", "_tls_wrap", "assert",
  "assert/strict", "async_hooks", "buffer", "child_process", "cluster", "console", "constants",
  "crypto", "dgram", "diagnostics_channel", "dns", "dns/promises", "domain", "events", "fs",
  "fs/promises", "http", "http2", "https", "inspector", "inspector/promises", "module", "net",
  "os", "path", "path/posix", "path/win32", "perf_hooks", "process", "punycode", "querystring",
  "readline", "readline/promises", "repl", "stream", "stream/consumers", "stream/promises",
  "stream/web", "string_decoder", "sys", "timers", "timers/promises", "tls", "trace_events",
  "tty", "url", "util", "util/types", "v8", "vm", "wasi", "worker_threads", "zlib"]

/-- Looks for a name between two places of the table, halving the distance each time. -/
def searchBetween (table : Array String) (name : String) (low high : Nat) : Bool :=
  if _h : low < high then
    let middle := low + (high - low) / 2
    match table[middle]? with
    | none => false
    | some entry =>
      if entry = name then true
      else if entry < name then searchBetween table name (middle + 1) high
      else searchBetween table name low middle
  else false
termination_by high - low

/-- Whether a sorted table holds a name. -/
def search (table : Array String) (name : String) : Bool :=
  searchBetween table name 0 table.size

/-- Whether an identifier names a module of the runtime: one of the table, or any identifier that
says so by its beginning. -/
def isBuiltin (id : String) : Bool := id.startsWith "node:" || search names id

end SourceDeps.Builtin
