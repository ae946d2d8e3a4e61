/-!
# The page

The page that tells a visitor what the service offers. It explains the parameters of a stream, shows
how to listen, and holds a form that puts a request together.
-/

namespace ToneRelay.Service.Page

/-- The head of the page, with its styles. -/
def head : List String := [
  "<!DOCTYPE html>",
  "<html lang=\"en\">",
  "<head>",
  "    <meta charset=\"utf-8\">",
  "    <title>Stream Server</title>",
  "    <style>",
  "        body \x7b font-family: sans-serif; max-width: 860px; margin: 2em auto; padding: 0 1em; color: #2c3e50; \x7d",
  "        pre \x7b background: #f4f6f7; padding: 0.8em; overflow-x: auto; \x7d",
  "        code.param \x7b color: #8e44ad; font-weight: bold; \x7d",
  "        form \x7b display: grid; grid-template-columns: 10em 1fr; gap: 0.4em 1em; max-width: 480px; \x7d",
  "        #stream-url \x7b word-break: break-all; \x7d",
  "    </style>",
  "</head>"]

/-- What is to be read. -/
def text : List String := [
  "<body>",
  "    <h1>Stream Server</h1>",
  "    <p>Brainwave entrainment audio rendered on demand and streamed as raw PCM.</p>",
  "",
  "    <h2>Endpoint</h2>",
  "    <pre>GET /stream?freq=10&amp;duration=5&amp;mode=binaural</pre>",
  "    <p>The response carries an <code>X-Stream-Id</code> header. After the stream ends,",
  "       <code>GET /streams/\x7bid\x7d</code> reports whether it completed, was aborted or failed.</p>",
  "",
  "    <h2>Query Parameters</h2>",
  "    <ul>",
  "        <li><code class=\"param\">freq</code> - Resonance frequency in Hz (default: 10)</li>",
  "        <li><code class=\"param\">end_freq</code> - Optional target frequency; the resonance moves toward it every 2 minutes</li>",
  "        <li><code class=\"param\">duration</code> - Duration in minutes (default: 5)</li>",
  "        <li><code class=\"param\">noise</code> - Noise type: white, pink, brown (default: pink)</li>",
  "        <li><code class=\"param\">mode</code> - Tone mode: binaural, monaural, isochronic (default: binaural)</li>",
  "        <li><code class=\"param\">carrier</code> - Carrier frequency in Hz (default: 300)</li>",
  "        <li><code class=\"param\">amplitude</code> - Tone amplitude 0-100 (default: 15)</li>",
  "    </ul>",
  "",
  "    <h2>Build a Stream URL</h2>",
  "    <form id=\"builder\">",
  "        <label for=\"freq\">freq</label><input id=\"freq\" name=\"freq\" value=\"10\">",
  "        <label for=\"end_freq\">end_freq</label><input id=\"end_freq\" name=\"end_freq\" placeholder=\"optional\">",
  "        <label for=\"duration\">duration</label><input id=\"duration\" name=\"duration\" value=\"5\">",
  "        <label for=\"noise\">noise</label>",
  "        <select id=\"noise\" name=\"noise\">",
  "            <option>white</option><option selected>pink</option><option>brown</option>",
  "        </select>",
  "        <label for=\"mode\">mode</label>",
  "        <select id=\"mode\" name=\"mode\">",
  "            <option selected>binaural</option><option>monaural</option><option>isochronic</option>",
  "        </select>",
  "        <label for=\"carrier\">carrier</label><input id=\"carrier\" name=\"carrier\" value=\"300\">",
  "        <label for=\"amplitude\">amplitude</label><input id=\"amplitude\" name=\"amplitude\" value=\"15\">",
  "    </form>",
  "    <pre id=\"stream-url\"></pre>",
  "",
  "    <h2>Command-Line Usage</h2>",
  "    <p>Play with curl and sox:</p>",
  "    <pre>curl -N \"http://localhost:8000/stream?freq=10&amp;duration=5\" | \\",
  "    play -t raw -r 44100 -e signed-integer -b 24 -c 2 -</pre>",
  "    <p>Save to a file:</p>",
  "    <pre>curl -N \"http://localhost:8000/stream?freq=8&amp;duration=10&amp;mode=isochronic\" &gt; output.raw</pre>",
  "    <p>Convert to WAV with ffmpeg:</p>",
  "    <pre>curl -N \"http://localhost:8000/stream?freq=6&amp;duration=15\" | \\",
  "    ffmpeg -f s24le -ar 44100 -ac 2 -i - output.wav</pre>",
  "",
  "    <h2>Audio Format</h2>",
  "    <ul>",
  "        <li><strong>Type:</strong> raw PCM (<code>audio/x-raw</code>)</li>",
  "        <li><strong>Sample rate:</strong> 44100 Hz</li>",
  "        <li><strong>Bit depth:</strong> 24 bits</li>",
  "        <li><strong>Channels:</strong> 2 (stereo)</li>",
  "        <li><strong>Encoding:</strong> signed integer, little-endian</li>",
  "    </ul>",
  ""]

/-- The script behind the form, and the end of the page. -/
def script : List String := [
  "    <script>",
  "        const form = document.getElementById('builder');",
  "        const out = document.getElementById('stream-url');",
  "        function update() \x7b",
  "            const params = new URLSearchParams();",
  "            for (const el of form.elements) \x7b",
  "                if (el.name && el.value.trim() !== '') params.set(el.name, el.value.trim());",
  "            \x7d",
  "            out.textContent = window.location.origin + '/stream?' + params.toString();",
  "        \x7d",
  "        form.addEventListener('input', update);",
  "        update();",
  "    </script>",
  "</body>",
  "</html>"]

/-- The whole page. -/
def html : String := String.join ((head ++ text ++ script).map (· ++ "\n"))

end ToneRelay.Service.Page
